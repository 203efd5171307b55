/-
What the functions of `iproute.c` do to one tree of routes.

In a tree that is `Ok` what is left of a node lies before its range, what is
right of it after, and what is under `mid` inside it; so no two nodes have one
range. A node of the queue is added again with its `mid`, which is right where
the node is apart from all of the tree or inside.
-/
import Mathlib.Tactic.Common
import Plan9.Ip.Route

namespace Plan9.Ip

/-! ## Ranges -/

namespace Route

def key (r : Route) : Nat × Nat := (r.address, r.endaddress)

def Has (r : Route) (a : Nat) : Prop := r.address ≤ a ∧ a ≤ r.endaddress

def Before (a b : Route) : Prop := a.endaddress < b.address

/-- Inside, and not the same range. -/
def Inside (a b : Route) : Prop := b.address ≤ a.address ∧ a.endaddress ≤ b.endaddress ∧ a.key ≠ b.key

/-- `x` is apart from `d`, or has it inside. -/
def Out (d x : Route) : Prop := d.Before x ∨ x.Before d ∨ d.Inside x

/-- Nested, equal or apart. -/
def Nested (a b : Route) : Prop := a.Before b ∨ b.Before a ∨ a.Inside b ∨ b.Inside a ∨ a.key = b.key

def Valid (r : Route) : Prop := r.address ≤ r.endaddress

variable {a b c : Route}

theorem key_eq : a.key = b.key ↔ a.address = b.address ∧ a.endaddress = b.endaddress := Prod.mk.injEq .. ▸ Iff.rfl

theorem Inside.trans (h1 : a.Inside b) (h2 : b.Inside c) : a.Inside c := by
  refine ⟨Nat.le_trans h2.1 h1.1, Nat.le_trans h1.2.1 h2.2.1, fun heq => h1.2.2 ?_⟩
  rw [key_eq] at heq ⊢
  have := h1.1
  have := h1.2.1
  have := h2.1
  have := h2.2.1
  omega

theorem Before.of_inside (h : b.Before c) (hi : a.Inside b) : a.Before c := Nat.lt_of_le_of_lt hi.2.1 h

theorem Before.to_inside (h : c.Before b) (hi : a.Inside b) : c.Before a := Nat.lt_of_lt_of_le h hi.1

theorem Before.trans (h1 : a.Before b) (h2 : b.Before c) (hb : b.Valid) : a.Before c :=
  Nat.lt_trans (Nat.lt_of_lt_of_le h1 hb) h2

theorem Before.key_ne (h : a.Before b) (ha : a.Valid) : a.key ≠ b.key := by
  intro heq
  rw [key_eq] at heq
  unfold Route.Before at h
  unfold Route.Valid at ha
  omega

end Route

open Route List

section

variable {a b : Route}

theorem rangecompare_before (h : a.Before b) : rangecompare a b = .Rpreceeds := if_pos h

theorem rangecompare_after (h : b.Before a) (ha : a.Valid) (hb : b.Valid) : rangecompare a b = .Rfollows := by
  unfold Route.Before at h
  unfold Route.Valid at ha hb
  unfold rangecompare
  rw [if_neg (by omega), if_pos h]

theorem rangecompare_equal (h : a.key = b.key) (hb : b.Valid) : rangecompare a b = .Requals := by
  rw [key_eq] at h
  unfold Route.Valid at hb
  unfold rangecompare
  rw [if_neg (by omega), if_neg (by omega), if_pos (by omega), if_pos h]

theorem rangecompare_contains (h : b.Inside a) (hb : b.Valid) : rangecompare a b = .Rcontains := by
  obtain ⟨h1, h2, hne⟩ := h
  rw [ne_eq, key_eq] at hne
  unfold Route.Valid at hb
  unfold rangecompare
  rw [if_neg (by omega), if_neg (by omega), if_pos ⟨h1, h2⟩, if_neg (by omega)]

theorem rangecompare_contained (h : a.Inside b) (ha : a.Valid) : rangecompare a b = .Rcontained := by
  obtain ⟨_, _, hne⟩ := h
  rw [ne_eq, key_eq] at hne
  unfold Route.Valid at ha
  unfold rangecompare
  rw [if_neg (by omega), if_neg (by omega), if_neg (by omega)]

end

/-! ## Trees -/

namespace RTree

def routes : RTree → List Route
  | nil => []
  | node p _ l m r => l.routes ++ p :: (m.routes ++ r.routes)

structure NodeOk (p : Route) (l m r : RTree) : Prop where
  valid : p.Valid
  left : ∀ x ∈ l.routes, x.Before p
  mid : ∀ x ∈ m.routes, x.Inside p
  right : ∀ x ∈ r.routes, p.Before x

def Ok : RTree → Prop
  | nil => True
  | node p _ l m r => NodeOk p l m r ∧ l.Ok ∧ m.Ok ∧ r.Ok

variable {p x y new : Route} {t l m r : RTree} {d : Nat}

theorem mem_routes_node : x ∈ (node p d l m r).routes ↔ x = p ∨ x ∈ l.routes ∨ x ∈ m.routes ∨ x ∈ r.routes := by
  change x ∈ l.routes ++ p :: (m.routes ++ r.routes) ↔ _
  rw [mem_append, mem_cons, mem_append]
  exact or_left_comm

theorem Ok.valid (h : t.Ok) (hx : x ∈ t.routes) : x.Valid := by
  induction t with
  | nil => exact nomatch hx
  | node p d l m r ihl ihm ihr =>
    obtain ⟨hp, hl, hm, hr⟩ := h
    rcases mem_routes_node.1 hx with rfl | hx | hx | hx
    · exact hp.valid
    · exact ihl hl hx
    · exact ihm hm hx
    · exact ihr hr hx

theorem NodeOk.left_right (h : NodeOk p l m r) (hx : x ∈ l.routes) (hy : y ∈ r.routes) : x.Before y :=
  (h.left x hx).trans (h.right y hy) h.valid

theorem NodeOk.left_mid (h : NodeOk p l m r) (hx : x ∈ l.routes) (hy : y ∈ m.routes) : x.Before y :=
  (h.left x hx).to_inside (h.mid y hy)

theorem NodeOk.mid_right (h : NodeOk p l m r) (hx : x ∈ m.routes) (hy : y ∈ r.routes) : x.Before y :=
  (h.right y hy).of_inside (h.mid x hx)

/-! ## Balancing -/

theorem Ok.calcd (h : t.Ok) : t.calcd.Ok := by
  cases t with
  | nil => trivial
  | node p d l m r => exact h

theorem Ok.rotate {q : Route} {ll lm lr : RTree} {d1 d2 d3 d4 : Nat} :
    (node p d1 (node q d2 ll lm lr) m r).Ok ↔ (node q d3 ll lm (node p d4 lr m r)).Ok := by
  constructor
  · rintro ⟨hp, ⟨hq, hll, hlm, hlr⟩, hm, hr⟩
    have hqp : q.Before p := hp.left q (mem_routes_node.2 (.inl rfl))
    refine ⟨⟨hq.valid, hq.left, hq.mid, fun x hx => ?_⟩, hll, hlm, ⟨hp.valid, fun x hx => ?_, hp.mid, hp.right⟩, hlr, hm, hr⟩
    · rcases mem_routes_node.1 hx with rfl | hx | hx | hx
      · exact hqp
      · exact hq.right x hx
      · exact hqp.to_inside (hp.mid x hx)
      · exact hqp.trans (hp.right x hx) hp.valid
    · exact hp.left x (mem_routes_node.2 (.inr (.inr (.inr hx))))
  rintro ⟨hq, hll, hlm, hp, hlr, hm, hr⟩
  have hqp : q.Before p := hq.right p (mem_routes_node.2 (.inl rfl))
  refine ⟨⟨hp.valid, fun x hx => ?_, hp.mid, hp.right⟩, ⟨⟨hq.valid, hq.left, hq.mid, fun x hx => ?_⟩, hll, hlm, hlr⟩, hm, hr⟩
  · rcases mem_routes_node.1 hx with rfl | hx | hx | hx
    · exact hqp
    · exact (hq.left x hx).trans hqp hq.valid
    · exact hqp.of_inside (hq.mid x hx)
    · exact hp.left x hx
  · exact hq.right x (mem_routes_node.2 (.inr (.inl hx)))

theorem balancetree_routes : (balancetree t).routes = t.routes := by
  cases t with
  | nil => rfl
  | node p d l m r =>
    dsimp only [balancetree]
    by_cases hl : l.depth > r.depth + 1
    · rw [if_pos hl]
      cases l with
      | nil => rfl
      | node q d2 ll lm lr => simp only [calcd, routes, append_assoc, cons_append]
    rw [if_neg hl]
    by_cases hr : r.depth > l.depth + 1
    · rw [if_pos hr]
      cases r with
      | nil => rfl
      | node q d2 rl rm rr => simp only [calcd, routes, append_assoc, cons_append]
    · rw [if_neg hr]
      rfl

theorem Ok.balancetree (h : t.Ok) : t.balancetree.Ok := by
  cases t with
  | nil => trivial
  | node p d l m r =>
    dsimp only [RTree.balancetree]
    by_cases hl : l.depth > r.depth + 1
    · rw [if_pos hl]
      cases l with
      | nil => exact h.calcd
      | node q d2 ll lm lr => exact Ok.rotate.1 h
    rw [if_neg hl]
    by_cases hr : r.depth > l.depth + 1
    · rw [if_pos hr]
      cases r with
      | nil => exact h.calcd
      | node q d2 rl rm rr => exact Ok.rotate.2 h
    · rw [if_neg hr]
      exact h.calcd

end RTree

/-! ## Trees that change -/

open RTree

variable {p x new del : Route} {newmid t root l m r : RTree} {d : Nat} {s : Side} {Q : List Route} {P P' : Route → Prop}
  {l' m' r' : RTree}

/-- The tree has the routes that `P` holds of, less those of `Q`, which are apart from them or inside. -/
structure Parted (t : RTree) (Q : List Route) (P : Route → Prop) : Prop where
  ok : t.Ok
  mem : ∀ x, x ∈ t.routes ∨ x ∈ Q ↔ P x
  out : ∀ y ∈ Q, ∀ x ∈ t.routes, y.Out x

theorem Parted.balancetree (h : Parted t Q P) : Parted t.balancetree Q P :=
  ⟨h.ok.balancetree, fun x => by rw [balancetree_routes, h.mem], fun y hy x hx => h.out y hy x (balancetree_routes ▸ hx)⟩

theorem Parted.left (h : Parted l' Q P) (hnode : (RTree.node p d l m r).Ok) (hP : ∀ x, P x → x.Before p)
    (hP' : ∀ x, P' x ↔ P x ∨ x = p ∨ x ∈ m.routes ∨ x ∈ r.routes) : Parted (.node p d l' m r) Q P' := by
  obtain ⟨hp, -, hm, hr⟩ := hnode
  refine ⟨⟨⟨hp.valid, fun x hx => hP x ((h.mem x).1 (.inl hx)), hp.mid, hp.right⟩, h.ok, hm, hr⟩, fun x => ?_,
    fun y hy x hx => ?_⟩
  · rw [mem_routes_node, hP', ← h.mem]
    simp only [or_assoc, or_left_comm, or_comm]
  have hyp := hP y ((h.mem y).1 (.inr hy))
  rcases mem_routes_node.1 hx with rfl | hx | hx | hx
  · exact .inl hyp
  · exact h.out y hy x hx
  · exact .inl (hyp.to_inside (hp.mid x hx))
  · exact .inl (hyp.trans (hp.right x hx) hp.valid)

theorem Parted.right (h : Parted r' Q P) (hnode : (RTree.node p d l m r).Ok) (hP : ∀ x, P x → p.Before x)
    (hP' : ∀ x, P' x ↔ P x ∨ x = p ∨ x ∈ l.routes ∨ x ∈ m.routes) : Parted (.node p d l m r') Q P' := by
  obtain ⟨hp, hl, hm, -⟩ := hnode
  refine ⟨⟨⟨hp.valid, hp.left, hp.mid, fun x hx => hP x ((h.mem x).1 (.inl hx))⟩, hl, hm, h.ok⟩, fun x => ?_,
    fun y hy x hx => ?_⟩
  · rw [mem_routes_node, hP', ← h.mem]
    simp only [or_assoc, or_left_comm, or_comm]
  have hyp := hP y ((h.mem y).1 (.inr hy))
  rcases mem_routes_node.1 hx with rfl | hx | hx | hx
  · exact .inr (.inl hyp)
  · exact .inr (.inl ((hp.left x hx).trans hyp hp.valid))
  · exact .inr (.inl (hyp.of_inside (hp.mid x hx)))
  · exact h.out y hy x hx

theorem Parted.mid (h : Parted m' Q P) (hnode : (RTree.node p d l m r).Ok) (hP : ∀ x, P x → x.Inside p)
    (hP' : ∀ x, P' x ↔ P x ∨ x = p ∨ x ∈ l.routes ∨ x ∈ r.routes) : Parted (.node p d l m' r) Q P' := by
  obtain ⟨hp, hl, -, hr⟩ := hnode
  refine ⟨⟨⟨hp.valid, hp.left, fun x hx => hP x ((h.mem x).1 (.inl hx)), hp.right⟩, hl, h.ok, hr⟩, fun x => ?_,
    fun y hy x hx => ?_⟩
  · rw [mem_routes_node, hP', ← h.mem]
    simp only [or_assoc, or_left_comm, or_comm]
  have hyp := hP y ((h.mem y).1 (.inr hy))
  rcases mem_routes_node.1 hx with rfl | hx | hx | hx
  · exact .inr (.inr hyp)
  · exact .inr (.inl ((hp.left x hx).to_inside hyp))
  · exact h.out y hy x hx
  · exact .inl ((hp.right x hx).of_inside hyp)

theorem supersede_key (p new : Route) : (supersede p new).address = p.address ∧ (supersede p new).endaddress = p.endaddress := by
  unfold supersede
  split
  · exact ⟨rfl, rfl⟩
  · split <;> exact ⟨rfl, rfl⟩

theorem RTree.Ok.key_ne (h : (RTree.node p d l m r).Ok) (hx : x ∈ l.routes ∨ x ∈ m.routes ∨ x ∈ r.routes) : x.key ≠ p.key := by
  obtain ⟨hp, hl, -, -⟩ := h
  rcases hx with hx | hx | hx
  · exact (hp.left x hx).key_ne (hl.valid hx)
  · exact (hp.mid x hx).2.2
  · exact ((hp.right x hx).key_ne hp.valid).symm

/-! ## Adding a node again -/

theorem addnode_out (hroot : root.Ok) (hnew : new.Valid) (hmid : newmid.Ok) (hin : ∀ x ∈ newmid.routes, x.Inside new)
    (hout : ∀ x ∈ root.routes, new.Out x) :
    ∃ root', addnode new newmid root s = (root', s) ∧
      Parted root' [] fun x => x = new ∨ x ∈ newmid.routes ∨ x ∈ root.routes := by
  induction root with
  | nil =>
    refine ⟨.node new 1 .nil newmid .nil, rfl,
      ⟨⟨hnew, fun x hx => (nomatch hx), hin, fun x hx => (nomatch hx)⟩, trivial, hmid, trivial⟩, fun x => ?_,
      fun y hy => (nomatch hy)⟩
    simp [routes]
  | node p d l m r ihl ihm ihr =>
    have hnode := hroot
    obtain ⟨hp, hl, hm, hr⟩ := hroot
    rcases hout p (mem_routes_node.2 (.inl rfl)) with hbefore | hafter | hinside
    · obtain ⟨l', hadd, hparted⟩ := ihl hl fun x hx => hout x (mem_routes_node.2 (.inr (.inl hx)))
      refine ⟨balancetree (.node p d l' m r), ?_, (hparted.left hnode ?_ fun x => ?_).balancetree⟩
      · dsimp only [addnode]
        rw [rangecompare_before hbefore]
        rw [hadd]
      · rintro x (rfl | hx | hx)
        · exact hbefore
        · exact hbefore.of_inside (hin x hx)
        · exact hp.left x hx
      · rw [mem_routes_node]
        simp only [or_assoc, or_left_comm]
    · obtain ⟨r', hadd, hparted⟩ := ihr hr fun x hx => hout x (mem_routes_node.2 (.inr (.inr (.inr hx))))
      refine ⟨balancetree (.node p d l m r'), ?_, (hparted.right hnode ?_ fun x => ?_).balancetree⟩
      · dsimp only [addnode]
        rw [rangecompare_after hafter hnew hp.valid]
        rw [hadd]
      · rintro x (rfl | hx | hx)
        · exact hafter
        · exact hafter.to_inside (hin x hx)
        · exact hp.right x hx
      · rw [mem_routes_node]
        simp only [or_assoc, or_left_comm, or_comm]
    obtain ⟨m', hadd, hparted⟩ := ihm hm fun x hx => hout x (mem_routes_node.2 (.inr (.inr (.inl hx))))
    refine ⟨balancetree (.node p d l m' r), ?_, (hparted.mid hnode ?_ fun x => ?_).balancetree⟩
    · dsimp only [addnode]
      rw [rangecompare_contained hinside hnew]
      rw [hadd]
    · rintro x (rfl | hx | hx)
      · exact hinside
      · exact (hin x hx).trans hinside
      · exact hp.mid x hx
    · rw [mem_routes_node]
      simp only [or_assoc, or_left_comm]

theorem walkadd_spec (ht : t.Ok) (hroot : root.Ok) (hout : ∀ y ∈ t.routes, ∀ x ∈ root.routes, y.Out x) :
    ∃ root', walkadd t root s = (root', s) ∧ root'.Ok ∧ ∀ x, x ∈ root'.routes ↔ x ∈ t.routes ∨ x ∈ root.routes := by
  induction t generalizing root with
  | nil => exact ⟨root, rfl, hroot, fun x => ⟨.inr, fun h => h.resolve_left (nomatch ·)⟩⟩
  | node p d l m r ihl _ ihr =>
    obtain ⟨hp, hl, hm, hr⟩ := ht
    obtain ⟨root1, h1, hparted⟩ := addnode_out (s := s) hroot hp.valid hm hp.mid
      (hout p (mem_routes_node.2 (.inl rfl)))
    have hok1 := hparted.ok
    have hmem1 : ∀ x, x ∈ root1.routes ↔ x = p ∨ x ∈ m.routes ∨ x ∈ root.routes := fun x =>
      (or_iff_left not_mem_nil).symm.trans (hparted.mem x)
    obtain ⟨_, h2, hok2, hmem2⟩ := ihl hl hok1 fun y hy x hx => by
      rcases (hmem1 x).1 hx with rfl | hx | hx
      · exact .inl (hp.left y hy)
      · exact .inl (hp.left_mid hy hx)
      · exact hout y (mem_routes_node.2 (.inr (.inl hy))) x hx
    obtain ⟨root3, h3, hok3, hmem3⟩ := ihr hr hok2 fun y hy x hx => by
      rcases (hmem2 x).1 hx with hx | hx
      · exact .inr (.inl (hp.left_right hx hy))
      rcases (hmem1 x).1 hx with rfl | hx | hx
      · exact .inr (.inl (hp.right y hy))
      · exact .inr (.inl (hp.mid_right hx hy))
      · exact hout y (mem_routes_node.2 (.inr (.inr (.inr hy)))) x hx
    refine ⟨root3, ?_, hok3, fun x => ?_⟩
    · dsimp only [walkadd]
      rw [h1]
      rw [h2]
      rw [h3]
    · rw [hmem3, hmem2, hmem1, mem_routes_node]
      simp only [or_assoc, or_left_comm]

/-- The trees of the queue are apart from those after them, and from the tree. -/
theorem requeue_spec {queue : List RTree} (ifcid : Nat → Nat) (hqueue : ∀ t ∈ queue, t.Ok) (hroot : root.Ok)
    (hout : ∀ t ∈ queue, ∀ y ∈ t.routes, ∀ x ∈ root.routes, y.Out x)
    (hpair : queue.Pairwise fun t t' => ∀ y ∈ t'.routes, ∀ x ∈ t.routes, y.Out x) {turns : Nat} (hturns : queue.length ≤ turns) :
    ∃ root', requeue turns root ⟨queue, ifcid⟩ = (root', ⟨[], ifcid⟩) ∧ root'.Ok ∧
      ∀ x, x ∈ root'.routes ↔ (∃ t ∈ queue, x ∈ t.routes) ∨ x ∈ root.routes := by
  induction queue generalizing root turns with
  | nil => exact ⟨root, by cases turns <;> rfl, hroot, fun x => by simp⟩
  | cons t queue ih =>
    obtain ⟨turns, rfl⟩ := Nat.exists_eq_add_of_lt (Nat.lt_of_lt_of_le (Nat.succ_pos _) hturns)
    obtain ⟨hfirst, hrest⟩ := pairwise_cons.1 hpair
    obtain ⟨_, h1, hok1, hmem1⟩ := walkadd_spec (s := ⟨queue, ifcid⟩) (hqueue t mem_cons_self) hroot
      (hout t mem_cons_self)
    obtain ⟨root2, h2, hok2, hmem2⟩ := ih (fun t' ht' => hqueue t' (mem_cons_of_mem _ ht')) hok1
      (fun t' ht' y hy x hx => by
        rcases (hmem1 x).1 hx with hx | hx
        · exact hfirst t' ht' y hy x hx
        · exact hout t' (mem_cons_of_mem _ ht') y hy x hx) hrest (Nat.le_of_succ_le_succ hturns)
    refine ⟨root2, ?_, hok2, fun x => ?_⟩
    · dsimp only [requeue]
      rw [h1]
      rw [h2]
    · rw [hmem2, hmem1]
      simp only [mem_cons, exists_eq_or_imp, or_assoc, or_left_comm]

/-! ## One range changed -/

/-- What `t` has, with `c` for the range `k`. -/
def changed (c : Option Route) (k : Nat × Nat) (t : RTree) (x : Route) : Prop := c = some x ∨ x ∈ t.routes ∧ x.key ≠ k

variable {c : Option Route}

theorem Route.Before.of_key {a b q : Route} (h : a.Before q) (hkey : b.key = a.key) : b.Before q := by
  rw [key_eq] at hkey
  unfold Route.Before at h ⊢
  omega

theorem Route.Before.to_key {a b q : Route} (h : q.Before a) (hkey : b.key = a.key) : q.Before b := by
  rw [key_eq] at hkey
  unfold Route.Before at h ⊢
  omega

theorem Route.Inside.of_key {a b q : Route} (h : a.Inside q) (hkey : b.key = a.key) : b.Inside q := by
  obtain ⟨_, _, h3⟩ := h
  have heq := key_eq.1 hkey
  exact ⟨by omega, by omega, hkey ▸ h3⟩

theorem RTree.Ok.ne_of_before (h : (RTree.node p d l m r).Ok) (hnew : new.Valid) (hbefore : new.Before p)
    (hx : x = p ∨ x ∈ m.routes ∨ x ∈ r.routes) : x.key ≠ new.key := by
  have hp := h.1
  rcases hx with rfl | hx | hx
  · exact (hbefore.key_ne hnew).symm
  · exact ((hbefore.to_inside (hp.mid x hx)).key_ne hnew).symm
  · exact ((hbefore.trans (hp.right x hx) hp.valid).key_ne hnew).symm

theorem RTree.Ok.ne_of_after (h : (RTree.node p d l m r).Ok) (hafter : p.Before new)
    (hx : x = p ∨ x ∈ l.routes ∨ x ∈ m.routes) : x.key ≠ new.key := by
  obtain ⟨hp, hl, hm, -⟩ := h
  rcases hx with rfl | hx | hx
  · exact hafter.key_ne hp.valid
  · exact ((hp.left x hx).trans hafter hp.valid).key_ne (hl.valid hx)
  · exact (hafter.of_inside (hp.mid x hx)).key_ne (hm.valid hx)

theorem RTree.Ok.ne_of_inside (h : (RTree.node p d l m r).Ok) (hnew : new.Valid) (hinside : new.Inside p)
    (hx : x = p ∨ x ∈ l.routes ∨ x ∈ r.routes) : x.key ≠ new.key := by
  obtain ⟨hp, hl, -, -⟩ := h
  rcases hx with rfl | hx | hx
  · exact hinside.2.2.symm
  · exact ((hp.left x hx).to_inside hinside).key_ne (hl.valid hx)
  · exact (((hp.right x hx).of_inside hinside).key_ne hnew).symm

theorem RTree.Ok.ne_of_outside (h : (RTree.node p d l m r).Ok) (houtside : p.Inside new)
    (hx : x ∈ (RTree.node p d l m r).routes) : ¬ new.Inside x ∧ x.key ≠ new.key := by
  have hvalid := h.valid hx
  have hp := h.1
  have hpvalid := hp.valid
  obtain ⟨_, _, h3⟩ := houtside
  rw [ne_eq, key_eq] at h3 ⊢
  unfold Route.Inside
  unfold Route.Valid at hvalid hpvalid
  rcases mem_routes_node.1 hx with rfl | hx | hx | hx
  · omega
  · have := hp.left x hx
    unfold Route.Before at this
    omega
  · obtain ⟨_, _, _⟩ := hp.mid x hx
    omega
  · have := hp.right x hx
    unfold Route.Before at this
    omega

theorem Parted.changed_left (h : Parted l' Q (changed c new.key l)) (hnode : (RTree.node p d l m r).Ok) (hnew : new.Valid)
    (hbefore : new.Before p) (hc : ∀ x, c = some x → x.key = new.key) :
    Parted (.node p d l' m r) Q (changed c new.key (.node p d l m r)) := by
  have hp := hnode.1
  refine h.left hnode ?_ fun x => ?_
  · rintro x (hx | ⟨hx, -⟩)
    · exact hbefore.of_key (hc x hx)
    · exact hp.left x hx
  have hrest := fun hx => hnode.ne_of_before (x := x) hnew hbefore hx
  unfold changed
  rw [mem_routes_node]
  grind

theorem Parted.changed_right (h : Parted r' Q (changed c new.key r)) (hnode : (RTree.node p d l m r).Ok)
    (hafter : p.Before new) (hc : ∀ x, c = some x → x.key = new.key) :
    Parted (.node p d l m r') Q (changed c new.key (.node p d l m r)) := by
  have hp := hnode.1
  refine h.right hnode ?_ fun x => ?_
  · rintro x (hx | ⟨hx, -⟩)
    · exact hafter.to_key (hc x hx)
    · exact hp.right x hx
  have hrest := fun hx => hnode.ne_of_after (x := x) hafter hx
  unfold changed
  rw [mem_routes_node]
  grind

theorem Parted.changed_mid (h : Parted m' Q (changed c new.key m)) (hnode : (RTree.node p d l m r).Ok) (hnew : new.Valid)
    (hinside : new.Inside p) (hc : ∀ x, c = some x → x.key = new.key) :
    Parted (.node p d l m' r) Q (changed c new.key (.node p d l m r)) := by
  have hp := hnode.1
  refine h.mid hnode ?_ fun x => ?_
  · rintro x (hx | ⟨hx, -⟩)
    · exact hinside.of_key (hc x hx)
    · exact hp.mid x hx
  have hrest := fun hx => hnode.ne_of_inside (x := x) hnew hinside hx
  unfold changed
  rw [mem_routes_node]
  grind

theorem RTree.Ok.changed_node (h : (RTree.node p d l m r).Ok) {q : Route} (hq : q.key = p.key) :
    Parted (.node q d l m r) [] (changed (some q) p.key (.node p d l m r)) := by
  have hkey := key_eq.1 hq
  have hne : ∀ {x}, x ∈ l.routes ∨ x ∈ m.routes ∨ x ∈ r.routes → x.key ≠ p.key := h.key_ne
  obtain ⟨hp, hl, hm, hr⟩ := h
  refine ⟨⟨⟨?_, fun x hx => (hp.left x hx).to_key hq, fun x hx => ?_, fun x hx => (hp.right x hx).of_key hq⟩, hl, hm, hr⟩,
    fun x => ?_, fun y hy => (nomatch hy)⟩
  · have := hp.valid
    unfold Route.Valid at this ⊢
    omega
  · obtain ⟨_, _, h3⟩ := hp.mid x hx
    exact ⟨by omega, by omega, hq ▸ h3⟩
  unfold changed
  rw [mem_routes_node, mem_routes_node, or_iff_left not_mem_nil, Option.some.injEq]
  constructor
  · rintro (rfl | hx)
    · exact .inl rfl
    · exact .inr ⟨.inr hx, hne hx⟩
  rintro (rfl | ⟨rfl | hx, hkne⟩)
  · exact .inl rfl
  · exact absurd rfl hkne
  · exact .inr hx

/-! ## The queue -/

/-- The trees of the queue are apart from those before them, or inside, and have the routes of `Q`. -/
structure Queued (queue : List RTree) (Q : List Route) : Prop where
  ok : ∀ t ∈ queue, t.Ok
  mem : ∀ x, x ∈ Q ↔ ∃ t ∈ queue, x ∈ t.routes
  pair : queue.Pairwise fun t t' => ∀ y ∈ t'.routes, ∀ x ∈ t.routes, y.Out x

theorem Queued.empty : Queued [] [] := ⟨fun t ht => (nomatch ht), fun x => by simp, .nil⟩

theorem addqueue_length (s : Side) (t : RTree) : (s.addqueue t).queue.length ≤ s.queue.length + 1 := by
  cases t with
  | nil => exact Nat.le_succ _
  | node p d l m r => exact le_rfl

theorem Queued.addqueue (h : Queued s.queue Q) (ht : t.Ok) (hout : ∀ y ∈ Q, ∀ x ∈ t.routes, y.Out x) :
    Queued (s.addqueue t).queue (Q ++ t.routes) := by
  cases t with
  | nil => exact (append_nil Q).symm ▸ h
  | node p d l m r =>
    refine ⟨fun t' ht' => ?_, fun x => ?_, List.Pairwise.cons (fun t' ht' y hy => hout y ((h.mem y).2 ⟨t', ht', hy⟩)) h.pair⟩
    · rcases mem_cons.1 ht' with rfl | ht'
      · exact ht
      · exact h.ok t' ht'
    · rw [mem_append, h.mem]
      simp only [Side.addqueue, mem_cons, exists_eq_or_imp]
      exact or_comm

theorem Parted.requeue (hparted : Parted root Q P) (hqueued : Queued s.queue Q) {turns : Nat} (hturns : s.queue.length ≤ turns) :
    ∃ root', requeue turns root s = (root', ⟨[], s.ifcid⟩) ∧ root'.Ok ∧ ∀ x, x ∈ root'.routes ↔ P x := by
  obtain ⟨root', htake, hok, hmem⟩ := requeue_spec s.ifcid hqueued.ok hparted.ok
    (fun t ht y hy => hparted.out y ((hqueued.mem y).2 ⟨t, ht, hy⟩)) hqueued.pair hturns
  refine ⟨root', htake, hok, fun x => ?_⟩
  rw [hmem, ← hparted.mem, hqueued.mem]
  exact or_comm

/-! ## Adding a range -/

/-- The route of a new range: it supersedes one of the same range, or is itself. -/
def Placed (root : RTree) (new c : Route) : Prop :=
  (∃ p ∈ root.routes, p.key = new.key ∧ c = supersede p new) ∨ (∀ x ∈ root.routes, x.key ≠ new.key) ∧ c = new

theorem Placed.key {c : Route} (h : Placed root new c) : c.key = new.key := by
  rcases h with ⟨p, -, hkey, rfl⟩ | ⟨-, rfl⟩
  · rw [← hkey, key_eq]
    exact supersede_key p new
  · rfl

theorem Placed.mono {c : Route} (h : Placed root new c) (hsub : ∀ x ∈ root.routes, x ∈ t.routes)
    (hrest : ∀ x ∈ t.routes, x ∈ root.routes ∨ x.key ≠ new.key) : Placed t new c := by
  rcases h with ⟨p, hp, hkey⟩ | ⟨hne, hc⟩
  · exact .inl ⟨p, hsub p hp, hkey⟩
  · exact .inr ⟨fun x hx => (hrest x hx).elim (hne x) id, hc⟩

/-- A new range in a tree of ranges that are nested with it or apart. -/
theorem addnode_fresh (hroot : root.Ok) (hnew : new.Valid) (hnested : ∀ x ∈ root.routes, new.Nested x)
    (hqueue : s.queue = []) :
    ∃ root' s' c Q, addnode new .nil root s = (root', s') ∧ Queued s'.queue Q ∧ s'.queue.length ≤ 1 ∧ Placed root new c ∧
      Parted root' Q (changed (some c) new.key root) := by
  have hqueued : Queued s.queue [] := hqueue ▸ Queued.empty
  have hlength : s.queue.length = 0 := congrArg length hqueue
  induction root with
  | nil =>
    refine ⟨.node new 1 .nil .nil .nil, s, new, [], rfl, hqueued, by omega, .inr ⟨fun x hx => (nomatch hx), rfl⟩,
      ⟨⟨hnew, fun x hx => (nomatch hx), fun x hx => (nomatch hx), fun x hx => (nomatch hx)⟩, trivial, trivial, trivial⟩,
      fun x => ?_, fun y hy => (nomatch hy)⟩
    simp [routes, changed, eq_comm]
  | node p d l m r ihl ihm ihr =>
    have hnode := hroot
    obtain ⟨hp, hl, hm, hr⟩ := hroot
    rcases hnested p (mem_routes_node.2 (.inl rfl)) with hbefore | hafter | hinside | houtside | hequal
    · obtain ⟨l', s', c, Q, hadd, hq, hlen, hplaced, hparted⟩ := ihl hl fun x hx => hnested x (mem_routes_node.2 (.inr (.inl hx)))
      refine ⟨balancetree (.node p d l' m r), s', c, Q, ?_, hq, hlen,
        hplaced.mono (fun x hx => mem_routes_node.2 (.inr (.inl hx))) fun x hx => ?_,
        (hparted.changed_left hnode hnew hbefore fun x hx => Option.some.inj hx ▸ hplaced.key).balancetree⟩
      · dsimp only [addnode]
        rw [rangecompare_before hbefore]
        rw [hadd]
      · have hne := fun hx => hnode.ne_of_before (x := x) hnew hbefore hx
        rw [mem_routes_node] at hx
        grind
    · obtain ⟨r', s', c, Q, hadd, hq, hlen, hplaced, hparted⟩ := ihr hr fun x hx => hnested x (mem_routes_node.2 (.inr (.inr (.inr hx))))
      refine ⟨balancetree (.node p d l m r'), s', c, Q, ?_, hq, hlen,
        hplaced.mono (fun x hx => mem_routes_node.2 (.inr (.inr (.inr hx)))) fun x hx => ?_,
        (hparted.changed_right hnode hafter fun x hx => Option.some.inj hx ▸ hplaced.key).balancetree⟩
      · dsimp only [addnode]
        rw [rangecompare_after hafter hnew hp.valid]
        rw [hadd]
      · have hne := fun hx => hnode.ne_of_after (x := x) hafter hx
        rw [mem_routes_node] at hx
        grind
    · obtain ⟨m', s', c, Q, hadd, hq, hlen, hplaced, hparted⟩ := ihm hm fun x hx => hnested x (mem_routes_node.2 (.inr (.inr (.inl hx))))
      refine ⟨balancetree (.node p d l m' r), s', c, Q, ?_, hq, hlen,
        hplaced.mono (fun x hx => mem_routes_node.2 (.inr (.inr (.inl hx)))) fun x hx => ?_,
        (hparted.changed_mid hnode hnew hinside fun x hx => Option.some.inj hx ▸ hplaced.key).balancetree⟩
      · dsimp only [addnode]
        rw [rangecompare_contained hinside hnew]
        rw [hadd]
      · have hne := fun hx => hnode.ne_of_inside (x := x) hnew hinside hx
        rw [mem_routes_node] at hx
        grind
    · -- all of the tree makes way
      refine ⟨balancetree (.node new 1 .nil .nil .nil), s.addqueue (.node p d l m r), new, (RTree.node p d l m r).routes, ?_,
        hqueued.addqueue hnode (fun y hy => (nomatch hy)), ?_, .inr ⟨fun x hx => (hnode.ne_of_outside houtside hx).2, rfl⟩,
        Parted.balancetree ⟨?_, fun x => ?_, fun y hy x hx => ?_⟩⟩
      · dsimp only [addnode]
        rw [rangecompare_contains houtside hp.valid]
      · have := addqueue_length s (.node p d l m r)
        omega
      · exact ⟨⟨hnew, fun x hx => (nomatch hx), fun x hx => (nomatch hx), fun x hx => (nomatch hx)⟩, trivial, trivial, trivial⟩
      · have hrest := fun hx => hnode.ne_of_outside (x := x) houtside hx
        have hsingle : (RTree.node new 1 .nil .nil .nil).routes = [new] := rfl
        unfold changed
        grind
      obtain rfl : x = new := by simpa [routes] using hx
      obtain ⟨hnot, hne⟩ := hnode.ne_of_outside houtside hy
      rcases hnested y hy with h | h | h | h | h
      · exact .inr (.inl h)
      · exact .inl h
      · exact absurd h hnot
      · exact .inr (.inr h)
      · exact absurd h.symm hne
    refine ⟨balancetree (.node (supersede p new) d l m r), s.supersede p, supersede p new, [], ?_, ?_, ?_,
      .inl ⟨p, mem_routes_node.2 (.inl rfl), hequal.symm, rfl⟩, ?_⟩
    · dsimp only [addnode]
      rw [rangecompare_equal hequal hp.valid]
    · unfold Side.supersede
      split <;> exact hqueued
    · unfold Side.supersede
      split <;> exact Nat.le_trans (Nat.le_of_eq hlength) (Nat.zero_le 1)
    · rw [hequal]
      exact (hnode.changed_node (key_eq.2 (supersede_key p new))).balancetree

/-! ## Deleting a range -/

/-- The route of a range that is deleted once: none, one with a reference less, or none any more. -/
def Removed (root : RTree) (del : Route) (c : Option Route) : Prop :=
  (∀ x ∈ root.routes, x.key ≠ del.key) ∧ c = none ∨
  ∃ p ∈ root.routes, p.key = del.key ∧ c = if p.ref - 1 = 0 then none else some { p with ref := p.ref - 1 }

theorem Removed.key (h : Removed root del c) (hx : c = some x) : x.key = del.key := by
  rcases h with ⟨-, rfl⟩ | ⟨p, -, hkey, rfl⟩
  · exact nomatch hx
  split at hx
  · exact nomatch hx
  · cases hx
    exact hkey

theorem Removed.mono (h : Removed root del c) (hsub : ∀ x ∈ root.routes, x ∈ t.routes)
    (hrest : ∀ x ∈ t.routes, x ∈ root.routes ∨ x.key ≠ del.key) : Removed t del c := by
  rcases h with ⟨hne, hc⟩ | ⟨p, hp, hkey⟩
  · exact .inl ⟨fun x hx => (hrest x hx).elim (hne x) id, hc⟩
  · exact .inr ⟨p, hsub p hp, hkey⟩

theorem RTree.Ok.changed_none (h : (RTree.node p d l m r).Ok) :
    changed none p.key (.node p d l m r) x ↔ (x ∈ l.routes ∨ x ∈ m.routes) ∨ x ∈ r.routes := by
  constructor
  · rintro (hx | ⟨hx, hne⟩)
    · exact nomatch hx
    rcases mem_routes_node.1 hx with rfl | hx | hx | hx
    · exact absurd rfl hne
    · exact .inl (.inl hx)
    · exact .inl (.inr hx)
    · exact .inr hx
  · intro hx
    rw [or_assoc] at hx
    exact .inr ⟨mem_routes_node.2 (.inr hx), h.key_ne hx⟩

theorem delnode_spec (ht : t.Ok) (hdel : del.Valid) (hnested : ∀ x ∈ t.routes, del.Nested x) (hqueue : s.queue = []) :
    ∃ t' s' c Q, delnode del t s = (t', s') ∧ Queued s'.queue Q ∧ s'.queue.length ≤ 3 ∧ Removed t del c ∧
      Parted t' Q (changed c del.key t) := by
  have hqueued : Queued s.queue [] := hqueue ▸ Queued.empty
  have hlength : s.queue.length ≤ 3 := by rw [hqueue]; exact Nat.zero_le 3
  induction t with
  | nil =>
    refine ⟨.nil, s, none, [], rfl, hqueued, hlength, .inl ⟨fun x hx => (nomatch hx), rfl⟩, trivial, fun x => ?_, fun y hy => (nomatch hy)⟩
    simp [routes, changed]
  | node p d l m r ihl ihm ihr =>
    have hnode := ht
    obtain ⟨hp, hl, hm, hr⟩ := ht
    rcases hnested p (mem_routes_node.2 (.inl rfl)) with hbefore | hafter | hinside | houtside | hequal
    · obtain ⟨l', s', c, Q, hdelnode, hq, hlen, hremoved, hparted⟩ := ihl hl fun x hx => hnested x (mem_routes_node.2 (.inr (.inl hx)))
      refine ⟨.node p d l' m r, s', c, Q, ?_, hq, hlen,
        hremoved.mono (fun x hx => mem_routes_node.2 (.inr (.inl hx))) fun x hx => ?_,
        hparted.changed_left hnode hdel hbefore fun x => hremoved.key⟩
      · dsimp only [delnode]
        rw [rangecompare_before hbefore]
        rw [hdelnode]
      · have hne := fun hx => hnode.ne_of_before (x := x) hdel hbefore hx
        rw [mem_routes_node] at hx
        grind
    · obtain ⟨r', s', c, Q, hdelnode, hq, hlen, hremoved, hparted⟩ := ihr hr fun x hx => hnested x (mem_routes_node.2 (.inr (.inr (.inr hx))))
      refine ⟨.node p d l m r', s', c, Q, ?_, hq, hlen,
        hremoved.mono (fun x hx => mem_routes_node.2 (.inr (.inr (.inr hx)))) fun x hx => ?_,
        hparted.changed_right hnode hafter fun x => hremoved.key⟩
      · dsimp only [delnode]
        rw [rangecompare_after hafter hdel hp.valid]
        rw [hdelnode]
      · have hne := fun hx => hnode.ne_of_after (x := x) hafter hx
        rw [mem_routes_node] at hx
        grind
    · obtain ⟨m', s', c, Q, hdelnode, hq, hlen, hremoved, hparted⟩ := ihm hm fun x hx => hnested x (mem_routes_node.2 (.inr (.inr (.inl hx))))
      refine ⟨.node p d l m' r, s', c, Q, ?_, hq, hlen,
        hremoved.mono (fun x hx => mem_routes_node.2 (.inr (.inr (.inl hx)))) fun x hx => ?_,
        hparted.changed_mid hnode hdel hinside fun x => hremoved.key⟩
      · dsimp only [delnode]
        rw [rangecompare_contained hinside hdel]
        rw [hdelnode]
      · have hne := fun hx => hnode.ne_of_inside (x := x) hdel hinside hx
        rw [mem_routes_node] at hx
        grind
    · have hne : ∀ x ∈ (RTree.node p d l m r).routes, x.key ≠ del.key := fun x hx => (hnode.ne_of_outside houtside hx).2
      refine ⟨.node p d l m r, s, none, [], ?_, hqueued, hlength, .inl ⟨hne, rfl⟩, hnode, fun x => ?_, fun y hy => (nomatch hy)⟩
      · dsimp only [delnode]
        rw [rangecompare_contains houtside hp.valid]
      · unfold changed
        grind
    have hfind := rangecompare_equal hequal hp.valid
    by_cases hlast : p.ref - 1 = 0
    · -- the last reference: the trees under the node are queued
      refine ⟨.nil, ((s.addqueue l).addqueue m).addqueue r, none, [] ++ l.routes ++ m.routes ++ r.routes, ?_, ?_, ?_,
        .inr ⟨p, mem_routes_node.2 (.inl rfl), hequal.symm, (if_pos hlast).symm⟩, trivial, fun x => ?_, fun y _ x hx => (nomatch hx)⟩
      · dsimp only [delnode]
        rw [hfind]
        rw [if_pos hlast]
      · refine ((hqueued.addqueue hl fun y hy => (nomatch hy)).addqueue hm fun y hy x hx => ?_).addqueue hr fun y hy x hx => ?_
        · exact .inl (hp.left_mid hy hx)
        · rcases mem_append.1 hy with hy | hy
          · exact .inl (hp.left_right hy hx)
          · exact .inl (hp.mid_right hy hx)
      · have h1 := addqueue_length s l
        have h2 := addqueue_length (s.addqueue l) m
        have h3 := addqueue_length ((s.addqueue l).addqueue m) r
        rw [hqueue, length_nil] at h1
        omega
      · rw [hequal, hnode.changed_none]
        simp only [routes, not_mem_nil, false_or, nil_append, mem_append]
    refine ⟨.node { p with ref := p.ref - 1 } d l m r, s, some { p with ref := p.ref - 1 }, [], ?_, hqueued, hlength,
      .inr ⟨p, mem_routes_node.2 (.inl rfl), hequal.symm, (if_neg hlast).symm⟩, ?_⟩
    · dsimp only [delnode]
      rw [hfind]
      rw [if_neg hlast]
    · rw [hequal]
      exact hnode.changed_node rfl

/-! ## Looking up -/

/-- The walk ends at the innermost node that has the address. -/
theorem lookwalk_spec (ht : t.Ok) (la : Nat) (q : Option Route) :
    (lookwalk la t q = q ∧ ∀ x ∈ t.routes, ¬ x.Has la) ∨
    ∃ x ∈ t.routes, lookwalk la t q = some x ∧ x.Has la ∧ ∀ y ∈ t.routes, y.Has la → y = x ∨ x.Inside y := by
  induction t generalizing q with
  | nil => exact .inl ⟨rfl, fun x hx => (nomatch hx)⟩
  | node p d l m r ihl ihm ihr =>
    obtain ⟨hp, hl, hm, hr⟩ := ht
    have hpvalid := hp.valid
    unfold Route.Valid at hpvalid
    dsimp only [lookwalk]
    by_cases hlo : la ≥ p.address
    · rw [if_pos hlo]
      have hleft : ∀ x ∈ l.routes, ¬ x.Has la := fun x hx hhas => by
        have := hp.left x hx
        unfold Route.Before at this
        have := hhas.2
        omega
      by_cases hhi : la ≤ p.endaddress
      · rw [if_pos hhi]
        have hright : ∀ x ∈ r.routes, ¬ x.Has la := fun x hx hhas => by
          have := hp.right x hx
          unfold Route.Before at this
          have := hhas.1
          omega
        rcases ihm hm (some p) with ⟨heq, hnone⟩ | ⟨x, hx, heq, hhas, hinner⟩
        · refine .inr ⟨p, mem_routes_node.2 (.inl rfl), heq, ⟨hlo, hhi⟩, fun y hy hyla => ?_⟩
          rcases mem_routes_node.1 hy with rfl | hy | hy | hy
          · exact .inl rfl
          · exact absurd hyla (hleft y hy)
          · exact absurd hyla (hnone y hy)
          · exact absurd hyla (hright y hy)
        refine .inr ⟨x, mem_routes_node.2 (.inr (.inr (.inl hx))), heq, hhas, fun y hy hyla => ?_⟩
        rcases mem_routes_node.1 hy with rfl | hy | hy | hy
        · exact .inr (hp.mid x hx)
        · exact absurd hyla (hleft y hy)
        · exact hinner y hy hyla
        · exact absurd hyla (hright y hy)
      rw [if_neg hhi]
      have hmid : ∀ x ∈ m.routes, ¬ x.Has la := fun x hx hhas => by
        have := (hp.mid x hx).2.1
        have := hhas.2
        omega
      have hself : ¬ p.Has la := fun h => hhi h.2
      rcases ihr hr q with ⟨heq, hnone⟩ | ⟨x, hx, heq, hhas, hinner⟩
      · refine .inl ⟨heq, fun y hy => ?_⟩
        rcases mem_routes_node.1 hy with rfl | hy | hy | hy
        · exact hself
        · exact hleft y hy
        · exact hmid y hy
        · exact hnone y hy
      refine .inr ⟨x, mem_routes_node.2 (.inr (.inr (.inr hx))), heq, hhas, fun y hy hyla => ?_⟩
      rcases mem_routes_node.1 hy with rfl | hy | hy | hy
      · exact absurd hyla hself
      · exact absurd hyla (hleft y hy)
      · exact absurd hyla (hmid y hy)
      · exact hinner y hy hyla
    rw [if_neg hlo]
    have hrest : ∀ x, x = p ∨ x ∈ m.routes ∨ x ∈ r.routes → ¬ x.Has la := by
      rintro x (rfl | hx | hx) hhas
      · exact hlo hhas.1
      · have := (hp.mid x hx).1
        have := hhas.1
        omega
      have := hp.right x hx
      unfold Route.Before at this
      have := hhas.1
      omega
    rcases ihl hl q with ⟨heq, hnone⟩ | ⟨x, hx, heq, hhas, hinner⟩
    · refine .inl ⟨heq, fun y hy => ?_⟩
      rcases or_left_comm.1 (mem_routes_node.1 hy) with hy | hy
      · exact hnone y hy
      · exact hrest y hy
    refine .inr ⟨x, mem_routes_node.2 (.inr (.inl hx)), heq, hhas, fun y hy hyla => ?_⟩
    rcases or_left_comm.1 (mem_routes_node.1 hy) with hy | hy
    · exact hinner y hy hyla
    · exact absurd hyla (hrest y hy)

end Plan9.Ip
