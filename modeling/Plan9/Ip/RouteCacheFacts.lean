/-
Nodes and the trees that they are in.

A node is in one tree of one version (`OwnedBy`), whatever the masks of the routes.
A change of the one version leaves the other's routes and their interfaces alone
(`run_grown`), and a lookup changes the interface of no route but the one it finds
(`Net.attach_like`): neither changes what a lookup of the other's routes finds.
-/
import Plan9.Ip.RouteCache

namespace Plan9.Ip

open Function Option RTree Route

/-! ## Nodes of a tree -/

/-- The nodes with the number `n`. -/
def RTree.count (n : Nat) : RTree → Nat
  | nil => 0
  | node p _ l m r => (if p.id = n then 1 else 0) + l.count n + m.count n + r.count n

theorem count_node {n d : Nat} {p : Route} {l m r : RTree} :
    (RTree.node p d l m r).count n = (if p.id = n then 1 else 0) + l.count n + m.count n + r.count n := rfl

def queueCount (n : Nat) (queue : List RTree) : Nat := (queue.map (RTree.count n)).sum

variable {n : Nat} {t root newmid : RTree} {s : Side} {p x y new old : Route}

theorem count_pos (hx : x ∈ t.routes) : 0 < t.count x.id := by
  induction t with
  | nil => exact nomatch hx
  | node p d l m r ihl ihm ihr =>
    rw [count_node]
    rcases mem_routes_node.1 hx with rfl | hx | hx | hx
    · rw [if_pos rfl]
      omega
    · have := ihl hx
      omega
    · have := ihm hx
      omega
    · have := ihr hx
      omega

/-- A number that comes once is that of one node. -/
theorem eq_of_count (ht : t.count n ≤ 1) (hx : x ∈ t.routes) (hy : y ∈ t.routes) (hxn : x.id = n) (hyn : y.id = n) : x = y := by
  induction t with
  | nil => exact nomatch hx
  | node p d l m r ihl ihm ihr =>
    have hpos : ∀ {z u}, z ∈ RTree.routes u → z.id = n → 0 < u.count n := fun hz hzn => hzn ▸ count_pos hz
    have hself : p.id = n → (if p.id = n then 1 else 0) = 1 := fun h => if_pos h
    rw [count_node] at ht
    by_cases hpn : p.id = n
    · -- no other node has the number
      have hsame : ∀ z ∈ (RTree.node p d l m r).routes, z.id = n → z = p := by
        intro z hz hzn
        rcases mem_routes_node.1 hz with rfl | hz | hz | hz
        · rfl
        · have := hpos hz hzn
          omega
        · have := hpos hz hzn
          omega
        · have := hpos hz hzn
          omega
      rw [hsame x hx hxn, hsame y hy hyn]
    have hne : ∀ z, z.id = n → z ≠ p := fun z hz heq => hpn (heq ▸ hz)
    rcases (mem_routes_node.1 hx).resolve_left (hne x hxn) with hx | hx | hx <;>
      rcases (mem_routes_node.1 hy).resolve_left (hne y hyn) with hy | hy | hy
    · exact ihl (by omega) hx hy
    · have h1 := hpos hx hxn
      have h2 := hpos hy hyn
      omega
    · have h1 := hpos hx hxn
      have h2 := hpos hy hyn
      omega
    · have h1 := hpos hx hxn
      have h2 := hpos hy hyn
      omega
    · exact ihm (by omega) hx hy
    · have h1 := hpos hx hxn
      have h2 := hpos hy hyn
      omega
    · have h1 := hpos hx hxn
      have h2 := hpos hy hyn
      omega
    · have h1 := hpos hx hxn
      have h2 := hpos hy hyn
      omega
    · exact ihr (by omega) hx hy

theorem balancetree_count : t.balancetree.count n = t.count n := by
  cases t with
  | nil => rfl
  | node p d l m r =>
    dsimp only [balancetree]
    by_cases hl : l.depth > r.depth + 1
    · rw [if_pos hl]
      cases l with
      | nil => rfl
      | node q d2 ll lm lr =>
        simp only [calcd, RTree.count]
        omega
    rw [if_neg hl]
    by_cases hr : r.depth > l.depth + 1
    · rw [if_pos hr]
      cases r with
      | nil => rfl
      | node q d2 rl rm rr =>
        simp only [calcd, RTree.count]
        omega
    · rw [if_neg hr]
      rfl

theorem queueCount_addqueue (s : Side) (t : RTree) : queueCount n (s.addqueue t).queue = t.count n + queueCount n s.queue := by
  cases t with
  | nil => exact (Nat.zero_add _).symm
  | node p d l m r => rfl

theorem supersede_id (p new : Route) : (supersede p new).id = p.id := by
  unfold supersede
  split
  · rfl
  · split <;> rfl

/-- No node comes twice out of `addnode`. -/
theorem addnode_count :
    (addnode new newmid root s).1.count n + queueCount n (addnode new newmid root s).2.queue ≤
      (if new.id = n then 1 else 0) + newmid.count n + root.count n + queueCount n s.queue := by
  induction root generalizing s with
  | nil =>
    simp only [addnode, RTree.count]
    omega
  | node p d l m r ihl ihm ihr =>
    unfold addnode
    cases rangecompare new p with
    | Rpreceeds =>
      dsimp only
      rw [balancetree_count, count_node, count_node]
      have := @ihl s
      omega
    | Rfollows =>
      dsimp only
      rw [balancetree_count, count_node, count_node]
      have := @ihr s
      omega
    | Rcontained =>
      dsimp only
      rw [balancetree_count, count_node, count_node]
      have := @ihm s
      omega
    | Rcontains =>
      rw [balancetree_count, queueCount_addqueue, count_node]
      simp only [RTree.count]
      omega
    | Requals =>
      have hqueue : (s.supersede p).queue = s.queue := by
        unfold Side.supersede
        split <;> rfl
      rw [balancetree_count, hqueue, count_node, count_node, supersede_id]
      omega

/-- Nor does it change the `ifcid` of a node that is not of the tree. -/
theorem addnode_ifcid (h : root.count n = 0) : (addnode new newmid root s).2.ifcid n = s.ifcid n := by
  induction root generalizing s with
  | nil => rfl
  | node p d l m r ihl ihm ihr =>
    have hp : p.id ≠ n := fun heq => by simp [RTree.count, heq] at h
    simp only [RTree.count, if_neg hp, Nat.zero_add, Nat.add_eq_zero_iff] at h
    unfold addnode
    cases rangecompare new p with
    | Rpreceeds => exact ihl h.1.1
    | Rfollows => exact ihr h.2
    | Rcontained => exact ihm h.1.2
    | Rcontains => rfl
    | Requals =>
      dsimp only [Side.supersede]
      split
      · exact update_of_ne hp.symm _ _
      · rfl

theorem walkadd_count :
    (walkadd t root s).1.count n + queueCount n (walkadd t root s).2.queue ≤
      t.count n + root.count n + queueCount n s.queue := by
  induction t generalizing root s with
  | nil =>
    simp only [walkadd, RTree.count]
    omega
  | node p d l m r ihl _ ihr =>
    dsimp only [walkadd]
    have h1 := @addnode_count n root m s p
    have h2 := @ihl (addnode p m root s).1 (addnode p m root s).2
    have h3 := @ihr (walkadd l (addnode p m root s).1 (addnode p m root s).2).1
      (walkadd l (addnode p m root s).1 (addnode p m root s).2).2
    rw [count_node]
    omega

theorem walkadd_ifcid (ht : t.count n = 0) (h : root.count n + queueCount n s.queue = 0) :
    (walkadd t root s).2.ifcid n = s.ifcid n := by
  induction t generalizing root s with
  | nil => rfl
  | node p d l m r ihl _ ihr =>
    rw [count_node] at ht
    have h1 := @addnode_count n root m s p
    have h2 := @walkadd_count n l (addnode p m root s).1 (addnode p m root s).2
    dsimp only [walkadd]
    rw [ihr (by omega) (by omega), ihl (by omega) (by omega), addnode_ifcid (by omega)]

theorem requeue_count (turns : Nat) :
    (requeue turns root s).1.count n + queueCount n (requeue turns root s).2.queue ≤ root.count n + queueCount n s.queue := by
  induction turns generalizing root s with
  | zero => exact le_rfl
  | succ turns ih =>
    obtain ⟨queue, ifcid⟩ := s
    cases queue with
    | nil => exact le_rfl
    | cons t queue =>
      dsimp only [requeue]
      have h1 := @walkadd_count n t root ⟨queue, ifcid⟩
      have h2 := @ih (walkadd t root ⟨queue, ifcid⟩).1 (walkadd t root ⟨queue, ifcid⟩).2
      have hcons : queueCount n (t :: queue) = t.count n + queueCount n queue := rfl
      dsimp only at h1
      omega

theorem requeue_ifcid (turns : Nat) (h : root.count n + queueCount n s.queue = 0) :
    (requeue turns root s).2.ifcid n = s.ifcid n := by
  induction turns generalizing root s with
  | zero => rfl
  | succ turns ih =>
    obtain ⟨queue, ifcid⟩ := s
    cases queue with
    | nil => rfl
    | cons t queue =>
      have hcons : queueCount n (t :: queue) = t.count n + queueCount n queue := rfl
      rw [hcons] at h
      have h1 := @walkadd_count n t root ⟨queue, ifcid⟩
      dsimp only at h1
      dsimp only [requeue]
      rw [ih (by omega), walkadd_ifcid (by omega) (by dsimp only; omega)]

theorem delnode_count :
    (delnode old t s).1.count n + queueCount n (delnode old t s).2.queue ≤ t.count n + queueCount n s.queue := by
  induction t generalizing s with
  | nil => exact le_rfl
  | node p d l m r ihl ihm ihr =>
    unfold delnode
    cases rangecompare old p with
    | Rcontains => exact le_rfl
    | Rpreceeds =>
      have := @ihl s
      dsimp only
      rw [count_node, count_node]
      omega
    | Rfollows =>
      have := @ihr s
      dsimp only
      rw [count_node, count_node]
      omega
    | Rcontained =>
      have := @ihm s
      dsimp only
      rw [count_node, count_node]
      omega
    | Requals =>
      dsimp only
      split
      · rw [queueCount_addqueue, queueCount_addqueue, queueCount_addqueue]
        simp only [RTree.count]
        omega
      · exact le_rfl

theorem addqueue_ifcid (s : Side) (t : RTree) : (s.addqueue t).ifcid = s.ifcid := by
  cases t <;> rfl

theorem delnode_ifcid : (delnode old t s).2.ifcid = s.ifcid := by
  induction t generalizing s with
  | nil => rfl
  | node p d l m r ihl ihm ihr =>
    unfold delnode
    cases rangecompare old p with
    | Rcontains => rfl
    | Rpreceeds => exact ihl
    | Rfollows => exact ihr
    | Rcontained => exact ihm
    | Requals =>
      dsimp only
      split
      · rw [addqueue_ifcid, addqueue_ifcid, addqueue_ifcid]
      · rfl

theorem added_count (turns : Nat) :
    (requeue turns (addnode new .nil root s).1 (addnode new .nil root s).2).1.count n ≤
      (if new.id = n then 1 else 0) + root.count n + queueCount n s.queue := by
  have h1 := @addnode_count n root .nil s new
  have h2 := @requeue_count n (addnode new .nil root s).1 (addnode new .nil root s).2 turns
  have h3 : RTree.count n .nil = 0 := rfl
  omega

theorem added_ifcid (turns : Nat) (hnew : new.id ≠ n) (hroot : root.count n = 0) (hqueue : queueCount n s.queue = 0) :
    (requeue turns (addnode new .nil root s).1 (addnode new .nil root s).2).2.ifcid n = s.ifcid n := by
  have h1 := @addnode_count n root .nil s new
  have h3 : RTree.count n .nil = 0 := rfl
  rw [if_neg hnew] at h1
  rw [requeue_ifcid turns (by omega), addnode_ifcid hroot]

theorem deleted_count (turns : Nat) :
    (requeue turns (delnode old root s).1 (delnode old root s).2).1.count n ≤ root.count n + queueCount n s.queue := by
  have h1 := @delnode_count n root s old
  have h2 := @requeue_count n (delnode old root s).1 (delnode old root s).2 turns
  omega

theorem deleted_ifcid (turns : Nat) (hroot : root.count n = 0) (hqueue : queueCount n s.queue = 0) :
    (requeue turns (delnode old root s).1 (delnode old root s).2).2.ifcid n = s.ifcid n := by
  have h1 := @delnode_count n root s old
  rw [requeue_ifcid turns (by omega), delnode_ifcid]

/-! ## Nodes of a version -/

/-- A node is in the tree that `own` gives for its number. -/
def OwnedBy (own : Nat → Option (Version × Nat)) (v : Version) (root : Nat → RTree) : Prop :=
  ∀ h n, (root h).count n ≤ if own n = some (v, h) then 1 else 0

variable {own own' : Nat → Option (Version × Nat)} {v v' : Version} {h : Nat} {a a' : Adding}

theorem OwnedBy.of_mem {root : Nat → RTree} (ho : OwnedBy own v root) (hx : x ∈ (root h).routes) : own x.id = some (v, h) := by
  have hcount := ho h x.id
  have hpos := count_pos hx
  by_contra hne
  rw [if_neg hne] at hcount
  omega

theorem OwnedBy.count_zero {root : Nat → RTree} (ho : OwnedBy own v root) (hne : own n ≠ some (v, h)) : (root h).count n = 0 := by
  have hcount := ho h n
  rw [if_neg hne] at hcount
  omega

theorem OwnedBy.ext {root : Nat → RTree} (ho : OwnedBy own v root) (hext : ∀ n x, own n = some x → own' n = some x) :
    OwnedBy own' v root := by
  intro h n
  by_cases hown : own n = some (v, h)
  · rw [if_pos (hext n _ hown)]
    have := ho h n
    rwa [if_pos hown] at this
  · rw [ho.count_zero hown]
    exact Nat.zero_le _

/-- What a change of the version `v` does: its new nodes have new numbers, and the other version's are left alone. -/
structure Grown (v : Version) (own own' : Nat → Option (Version × Nat)) (a a' : Adding) : Prop where
  owned : OwnedBy own' v a'.root
  ext : ∀ n x, own n = some x → own' n = some x
  fresh : ∀ n, a'.next ≤ n → own' n = none
  ifcid : ∀ n v' h, own n = some (v', h) → v' ≠ v → a'.side.ifcid n = a.side.ifcid n

theorem foldl_grown {f : Adding → Nat → Adding} (hstuck : ∀ a h, a.side.queue ≠ [] → f a h = a)
    (hf : ∀ own a h, a.side.queue = [] → (f a h).side.queue = [] → OwnedBy own v a.root → (∀ n, a.next ≤ n → own n = none) →
      ∃ own', Grown v own own' a (f a h))
    (hs : List Nat) {own : Nat → Option (Version × Nat)} {a : Adding} (ho : OwnedBy own v a.root)
    (hfresh : ∀ n, a.next ≤ n → own n = none) (hqueue : a.side.queue = []) (hend : (hs.foldl f a).side.queue = []) :
    ∃ own', Grown v own own' a (hs.foldl f a) := by
  induction hs generalizing own a with
  | nil => exact ⟨own, ho, fun n x => id, hfresh, fun n v' h _ _ => rfl⟩
  | cons h hs ih =>
    have hthrough : (f a h).side.queue = [] := by
      by_contra hne
      have hfix : hs.foldl f (f a h) = f a h := by
        clear ih hend
        induction hs with
        | nil => rfl
        | cons h' hs ih =>
          rw [List.foldl_cons, hstuck _ _ hne]
          exact ih
      rw [List.foldl_cons, hfix] at hend
      exact hne hend
    obtain ⟨own1, h1⟩ := hf own a h hqueue hthrough ho hfresh
    obtain ⟨own2, h2⟩ := ih h1.owned h1.fresh hthrough hend
    refine ⟨own2, h2.owned, fun n x hx => h2.ext n x (h1.ext n x hx), h2.fresh, fun n v' h' hn hne => ?_⟩
    rw [List.foldl_cons, h2.ifcid n v' h' (h1.ext n _ hn) hne, h1.ifcid n v' h' hn hne]

theorem add1route_eq (turns sa ea type : Nat) (gate tag : List UInt8) (hqueue : a.side.queue = []) :
    add1route turns sa ea type gate tag a h =
      let r := addnode ⟨a.next, sa, ea, type, gate, tag, 1⟩ .nil (a.root h) a.side
      ⟨update a.root h (requeue turns r.1 r.2).1, (requeue turns r.1 r.2).2, a.next + 1⟩ := by
  unfold add1route
  rw [hqueue]

theorem del1route_eq (turns : Nat) (hqueue : a.side.queue = []) :
    del1route turns old a h =
      let r := delnode old (a.root h) a.side
      { a with root := update a.root h (requeue turns r.1 r.2).1, side := (requeue turns r.1 r.2).2 } := by
  unfold del1route
  rw [hqueue]

theorem add1route_grown (turns sa ea type : Nat) (gate tag : List UInt8) (hqueue : a.side.queue = [])
    (ho : OwnedBy own v a.root) (hfresh : ∀ n, a.next ≤ n → own n = none) :
    ∃ own', Grown v own own' a (add1route turns sa ea type gate tag a h) := by
  have hempty : ∀ n, queueCount n a.side.queue = 0 := fun n => by rw [hqueue]; rfl
  have hold : ∀ n x, own n = some x → n ≠ a.next := fun n x hx heq =>
    nomatch (hfresh n (Nat.le_of_eq heq.symm)).symm.trans hx
  have hext : ∀ n x, own n = some x → update own a.next (some (v, h)) n = some x := fun n x hx => by
    rw [update_of_ne (hold n x hx)]
    exact hx
  rw [add1route_eq turns sa ea type gate tag hqueue]
  refine ⟨update own a.next (some (v, h)), fun h' n => ?_, hext, fun n hn => ?_, fun n v' h' hx hne => ?_⟩
  · dsimp only
    by_cases hh : h' = h
    · subst hh
      have hcount := @added_count n (a.root h') a.side ⟨a.next, sa, ea, type, gate, tag, 1⟩ turns
      have hn := ho h' n
      rw [hempty] at hcount
      rw [update_self]
      by_cases hnext : n = a.next
      · subst hnext
        rw [ho.count_zero (by rw [hfresh _ le_rfl]; exact fun heq => nomatch heq), if_pos rfl] at hcount
        rw [update_self, if_pos rfl]
        exact hcount
      · rw [if_neg (Ne.symm hnext)] at hcount
        rw [update_of_ne hnext]
        omega
    · rw [update_of_ne hh]
      exact ho.ext hext h' n
  · dsimp only at hn
    rw [update_of_ne (by omega)]
    exact hfresh n (by omega)
  · have hnot : own n ≠ some (v, h) := fun heq => hne (congrArg Prod.fst (some.inj (hx.symm.trans heq)))
    exact added_ifcid turns (hold n _ hx).symm (ho.count_zero hnot) (hempty n)

theorem del1route_grown (turns : Nat) (hqueue : a.side.queue = []) (ho : OwnedBy own v a.root)
    (hfresh : ∀ n, a.next ≤ n → own n = none) : ∃ own', Grown v own own' a (del1route turns old a h) := by
  have hempty : ∀ n, queueCount n a.side.queue = 0 := fun n => by rw [hqueue]; rfl
  rw [del1route_eq turns hqueue]
  refine ⟨own, fun h' n => ?_, fun n x => id, hfresh, fun n v' h' hx hne => ?_⟩
  · dsimp only
    by_cases hh : h' = h
    · subst hh
      have hcount := @deleted_count n (a.root h') a.side old turns
      have hn := ho h' n
      rw [hempty] at hcount
      rw [update_self]
      omega
    · rw [update_of_ne hh]
      exact ho h' n
  · have hnot : own n ≠ some (v, h) := fun heq => hne (congrArg Prod.fst (some.inj (hx.symm.trans heq)))
    exact deleted_ifcid turns (ho.count_zero hnot) (hempty n)

/-! ## Changes -/

def Fs.table (f : Fs) : Version → Table
  | .v4 => f.v4
  | .v6 => f.v6

def RouteCall.version : RouteCall → Version
  | .v4add .. => .v4
  | .v6add .. => .v6
  | .v4del .. => .v4
  | .v6del .. => .v6

/-- Between changes. -/
structure Fs.Owned (f : Fs) (own : Nat → Option (Version × Nat)) : Prop where
  trees : ∀ v, OwnedBy own v (f.table v).root
  fresh : ∀ n, f.next ≤ n → own n = none
  queue : f.side.queue = []

/-- A change of the version `v`. -/
structure Changed (v : Version) (own own' : Nat → Option (Version × Nat)) (f f' : Fs) : Prop where
  owned : f'.Owned own'
  ext : ∀ n x, own n = some x → own' n = some x
  generation : (f'.table v).generation = (f.table v).generation + 1
  other : ∀ v' ≠ v, f'.table v' = f.table v'
  ifcid : ∀ n v' h, own n = some (v', h) → v' ≠ v → f'.side.ifcid n = f.side.ifcid n

variable {f : Fs}

theorem Fs.Owned.changed (hf : f.Owned own) {f' : Fs} {a' : Adding} (hroot : (f'.table v).root = a'.root)
    (hside : f'.side = a'.side) (hnext : f'.next = a'.next) (hgen : (f'.table v).generation = (f.table v).generation + 1)
    (hother : ∀ v' ≠ v, f'.table v' = f.table v') (hqueue : a'.side.queue = [])
    (hgrown : Grown v own own' ⟨(f.table v).root, f.side, f.next⟩ a') : Changed v own own' f f' := by
  refine ⟨⟨fun v' => ?_, fun n hn => hgrown.fresh n (hnext ▸ hn), hside ▸ hqueue⟩, hgrown.ext, hgen, hother,
    fun n v' h hn hne => by rw [hside, hgrown.ifcid n v' h hn hne]⟩
  by_cases hv : v' = v
  · rw [hv, hroot]
    exact hgrown.owned
  · rw [hother v' hv]
    exact (hf.trees v').ext hgrown.ext

theorem add1route_grown_all (v : Version) (turns sa ea type : Nat) (gate tag : List UInt8) (hs : List Nat) (ho : OwnedBy own v a.root)
    (hfresh : ∀ n, a.next ≤ n → own n = none) (hqueue : a.side.queue = [])
    (hend : (hs.foldl (add1route turns sa ea type gate tag) a).side.queue = []) :
    ∃ own', Grown v own own' a (hs.foldl (add1route turns sa ea type gate tag) a) := by
  refine foldl_grown (fun a h hne => ?_) (fun own a h hq _ => add1route_grown turns sa ea type gate tag hq) hs ho hfresh hqueue hend
  unfold add1route
  split
  · rfl
  · rename_i heq
    exact absurd heq hne

theorem del1route_grown_all (v : Version) (turns : Nat) (old : Route) (hs : List Nat) (ho : OwnedBy own v a.root)
    (hfresh : ∀ n, a.next ≤ n → own n = none) (hqueue : a.side.queue = [])
    (hend : (hs.foldl (del1route turns old) a).side.queue = []) : ∃ own', Grown v own own' a (hs.foldl (del1route turns old) a) := by
  refine foldl_grown (fun a h hne => ?_) (fun own a h hq _ => del1route_grown turns hq) hs ho hfresh hqueue hend
  unfold del1route
  split
  · rfl
  · rename_i heq
    exact absurd heq hne

theorem run_grown {call : RouteCall} {turns : Nat} (hf : f.Owned own) (hend : (call.run turns f).side.queue = []) :
    ∃ own', Changed call.version own own' f (call.run turns f) := by
  have hcases : ∀ {v v' : Version}, v' ≠ v → v = .v4 ∧ v' = .v6 ∨ v = .v6 ∧ v' = .v4 := by
    intro v v' hne
    cases v <;> cases v'
    · exact absurd rfl hne
    · exact .inl ⟨rfl, rfl⟩
    · exact .inr ⟨rfl, rfl⟩
    · exact absurd rfl hne
  cases call with
  | v4add tag a mask gate type =>
    obtain ⟨own', hgrown⟩ := add1route_grown_all .v4 turns _ _ _ gate tag _ (hf.trees .v4) hf.fresh hf.queue hend
    refine ⟨own', hf.changed rfl rfl rfl rfl (fun v' hne => ?_) hend hgrown⟩
    obtain ⟨-, rfl⟩ | ⟨hv, -⟩ := hcases hne
    · rfl
    · exact nomatch hv
  | v6add tag a mask gate type =>
    obtain ⟨own', hgrown⟩ := add1route_grown_all .v6 turns _ _ _ gate tag _ (hf.trees .v6) hf.fresh hf.queue hend
    refine ⟨own', hf.changed rfl rfl rfl rfl (fun v' hne => ?_) hend hgrown⟩
    obtain ⟨hv, -⟩ | ⟨-, rfl⟩ := hcases hne
    · exact nomatch hv
    · rfl
  | v4del a mask =>
    obtain ⟨own', hgrown⟩ := del1route_grown_all .v4 turns _ _ (hf.trees .v4) hf.fresh hf.queue hend
    refine ⟨own', hf.changed rfl rfl rfl rfl (fun v' hne => ?_) hend hgrown⟩
    obtain ⟨-, rfl⟩ | ⟨hv, -⟩ := hcases hne
    · rfl
    · exact nomatch hv
  | v6del a mask =>
    obtain ⟨own', hgrown⟩ := del1route_grown_all .v6 turns _ _ (hf.trees .v6) hf.fresh hf.queue hend
    refine ⟨own', hf.changed rfl rfl rfl rfl (fun v' hne => ?_) hend hgrown⟩
    obtain ⟨hv, -⟩ | ⟨-, rfl⟩ := hcases hne
    · exact nomatch hv
    · rfl

/-! ## Searches -/

def gateOf : Version → Route → List UInt8
  | .v4 => v4gate
  | .v6 => v6gate

/-- A route of the version. -/
def Fs.Has (f : Fs) (v : Version) (x : Route) : Prop := ∃ h, x ∈ ((f.table v).root h).routes

/-- The same routes of the version, and the same of them with an interface. -/
structure Like (w : Ifaces) (v : Version) (net net' : Net) : Prop where
  table : net'.fs.table v = net.fs.table v
  attach : ∀ x, net.fs.Has v x → (net'.attach w x (gateOf v x)).isSome = (net.attach w x (gateOf v x)).isSome

variable {w : Ifaces} {net net' : Net} {q : Route} {gate : List UInt8}

theorem attach_isSome : (net.attach w q gate).isSome = (net.attached w q || (w.findipifc gate q.type).isSome) := by
  unfold Net.attach
  cases net.attached w q with
  | true => rfl
  | false => cases w.findipifc gate q.type <;> rfl

theorem attach_eq (h : net.attach w q gate = some net') :
    net'.attached w q = true ∧ (∀ v, net'.fs.table v = net.fs.table v) ∧ net'.fs.next = net.fs.next ∧
      net'.fs.side.queue = net.fs.side.queue ∧ ∀ x, x.id ≠ q.id → net'.attached w x = net.attached w x := by
  unfold Net.attach at h
  by_cases hatt : net.attached w q = true
  · rw [if_pos hatt] at h
    cases h
    exact ⟨hatt, fun v => rfl, rfl, rfl, fun x _ => rfl⟩
  rw [if_neg hatt] at h
  cases hfind : w.findipifc gate q.type with
  | none => rw [hfind] at h; exact nomatch h
  | some i =>
    rw [hfind] at h
    cases h
    refine ⟨?_, fun v => by cases v <;> rfl, rfl, rfl, fun x hx => ?_⟩
    · unfold Net.attached
      dsimp only
      rw [update_self]
      rw [update_self]
      exact beq_self_eq_true _
    · unfold Net.attached
      dsimp only
      rw [update_of_ne hx, update_of_ne hx]

theorem Fs.Owned.eq_of_id (hf : f.Owned own) (hx : f.Has v x) (hy : f.Has v' y) (hid : x.id = y.id) : v = v' ∧ x = y := by
  obtain ⟨h, hx⟩ := hx
  obtain ⟨h', hy⟩ := hy
  have hownx := (hf.trees v).of_mem hx
  have howny := (hf.trees v').of_mem hy
  rw [hid, howny] at hownx
  obtain ⟨rfl, rfl⟩ := Prod.mk.inj (some.inj hownx)
  have hcount := hf.trees v' h' y.id
  rw [if_pos howny] at hcount
  exact ⟨rfl, eq_of_count hcount hx hy hid rfl⟩

theorem Fs.Owned.attach_like (hf : net.fs.Owned own) (hq : net.fs.Has v q) (h : net.attach w q (gateOf v q) = some net') (v' : Version) :
    Like w v' net net' := by
  obtain ⟨hatt, htable, -, -, hother⟩ := attach_eq h
  refine ⟨htable v', fun x hx => ?_⟩
  by_cases hid : x.id = q.id
  · obtain ⟨rfl, rfl⟩ := hf.eq_of_id hx hq hid
    rw [h, attach_isSome, hatt]
    rfl
  · rw [attach_isSome, attach_isSome, hother x hid]

theorem Fs.Owned.attach_owned (hf : net.fs.Owned own) (h : net.attach w q gate = some net') : net'.fs.Owned own := by
  obtain ⟨-, htable, hnext, hqueue, -⟩ := attach_eq h
  exact ⟨fun v => by rw [htable]; exact hf.trees v, fun n hn => hf.fresh n (hnext ▸ hn), hqueue ▸ hf.queue⟩

theorem lookwalk_mem {la : Nat} {o : Option Route} (h : lookwalk la t o = some x) : x ∈ t.routes ∨ o = some x := by
  induction t generalizing o with
  | nil => exact .inr h
  | node p d l m r ihl ihm ihr =>
    dsimp only [lookwalk] at h
    split at h
    · split at h
      · rcases ihm h with hx | hx
        · exact .inl (mem_routes_node.2 (.inr (.inr (.inl hx))))
        · exact .inl (mem_routes_node.2 (.inl (some.inj hx).symm))
      · rcases ihr h with hx | hx
        · exact .inl (mem_routes_node.2 (.inr (.inr (.inr hx))))
        · exact .inr hx
    · rcases ihl h with hx | hx
      · exact .inl (mem_routes_node.2 (.inr (.inl hx)))
      · exact .inr hx

theorem walk_has {la : Nat} (h : (f.table v).walk la = some x) : f.Has v x :=
  ⟨hash la, (lookwalk_mem h).resolve_right (nomatch ·)⟩

theorem v4find_net {turns la : Nat} {found : Found} (h : v4find w net turns la = some (found, net')) :
    (∃ q, found = .route (some q) ∧ net.fs.Has .v4 q ∧ net.attach w q (gateOf .v4 q) = some net') ∨
      (found = .route none ∨ found = .noifc) ∧ net' = net := by
  induction turns generalizing la with
  | zero => exact nomatch h
  | succ turns ih =>
    unfold v4find at h
    cases hwalk : net.fs.v4.walk la with
    | none =>
      rw [hwalk] at h
      cases h
      exact .inr ⟨.inl rfl, rfl⟩
    | some q =>
      rw [hwalk] at h
      dsimp only at h
      cases hattach : net.attach w q (v4gate q) with
      | some net1 =>
        rw [hattach] at h
        cases h
        exact .inl ⟨q, rfl, walk_has (v := .v4) hwalk, hattach⟩
      | none =>
        rw [hattach] at h
        dsimp only at h
        split at h
        · exact ih h
        · cases h
          exact .inr ⟨.inr rfl, rfl⟩

theorem v6find_net {la : Nat} :
    (∃ q, (v6find w net la).1 = .route (some q) ∧ net.fs.Has .v6 q ∧ net.attach w q (gateOf .v6 q) = some (v6find w net la).2) ∨
      ((v6find w net la).1 = .route none ∨ (v6find w net la).1 = .noifc) ∧ (v6find w net la).2 = net := by
  unfold v6find
  cases hwalk : net.fs.v6.walk la with
  | none => exact .inr ⟨.inl rfl, rfl⟩
  | some q =>
    dsimp only
    cases hattach : net.attach w q (v6gate q) with
    | some net1 => exact .inl ⟨q, rfl, walk_has (v := .v6) hwalk, hattach⟩
    | none => exact .inr ⟨.inr rfl, rfl⟩

theorem Like.attach_some (hlike : Like w v net net') (hx : net.fs.Has v x) {net1 : Net} (h : net.attach w x (gateOf v x) = some net1) :
    ∃ net2, net'.attach w x (gateOf v x) = some net2 := by
  have hsome := hlike.attach x hx
  rw [h] at hsome
  exact isSome_iff_exists.1 hsome

theorem Like.attach_none (hlike : Like w v net net') (hx : net.fs.Has v x) (h : net.attach w x (gateOf v x) = none) :
    net'.attach w x (gateOf v x) = none := by
  have hsome := hlike.attach x hx
  rw [h] at hsome
  cases hattach : net'.attach w x (gateOf v x) with
  | none => rfl
  | some net2 =>
    rw [hattach] at hsome
    exact nomatch hsome

theorem Like.v4find (hlike : Like w .v4 net net') {turns la : Nat} {found : Found} {net1 : Net}
    (h : Ip.v4find w net turns la = some (found, net1)) : ∃ net2, Ip.v4find w net' turns la = some (found, net2) := by
  have htable : net'.fs.v4 = net.fs.v4 := hlike.table
  induction turns generalizing la with
  | zero => exact nomatch h
  | succ turns ih =>
    unfold Ip.v4find at h ⊢
    rw [htable]
    cases hwalk : net.fs.v4.walk la with
    | none =>
      rw [hwalk] at h
      cases h
      exact ⟨net', rfl⟩
    | some q =>
      rw [hwalk] at h
      dsimp only at h ⊢
      have hhas : net.fs.Has .v4 q := walk_has hwalk
      cases hattach : net.attach w q (v4gate q) with
      | some net1 =>
        rw [hattach] at h
        cases h
        obtain ⟨net2, hnet2⟩ := hlike.attach_some hhas hattach
        exact ⟨net2, by rw [show net'.attach w q (v4gate q) = some net2 from hnet2]⟩
      | none =>
        rw [hattach] at h
        rw [show net'.attach w q (v4gate q) = none from hlike.attach_none hhas hattach]
        dsimp only at h ⊢
        split at h
        · rename_i hdefault
          rw [if_pos hdefault]
          exact ih h
        · rename_i hdefault
          rw [if_neg hdefault]
          cases h
          exact ⟨net', rfl⟩

theorem Like.v6find (hlike : Like w .v6 net net') (la : Nat) : (Ip.v6find w net' la).1 = (Ip.v6find w net la).1 := by
  have htable : net'.fs.v6 = net.fs.v6 := hlike.table
  unfold Ip.v6find
  rw [htable]
  cases hwalk : net.fs.v6.walk la with
  | none => rfl
  | some q =>
    dsimp only
    have hhas : net.fs.Has .v6 q := walk_has hwalk
    cases hattach : net.attach w q (v6gate q) with
    | some net1 =>
      obtain ⟨net2, hnet2⟩ := hlike.attach_some hhas hattach
      rw [show net'.attach w q (v6gate q) = some net2 from hnet2]
    | none => rw [show net'.attach w q (v6gate q) = none from hlike.attach_none hhas hattach]

theorem v4find_mono {turns la : Nat} {res : Found × Net} (h : v4find w net turns la = some res) (k : Nat) :
    v4find w net (turns + k) la = some res := by
  induction turns generalizing la with
  | zero => exact nomatch h
  | succ turns ih =>
    rw [Nat.succ_add]
    unfold v4find at h ⊢
    cases hwalk : net.fs.v4.walk la with
    | none =>
      rw [hwalk] at h
      exact h
    | some q =>
      rw [hwalk] at h
      dsimp only at h ⊢
      cases hattach : net.attach w q (v4gate q) with
      | some net1 =>
        rw [hattach] at h
        exact h
      | none =>
        rw [hattach] at h
        by_cases hdefault : q.address = 0 ∧ q.endaddress = 2 ^ 32 - 1
        · rw [if_pos hdefault] at h ⊢
          exact ih h
        · rw [if_neg hdefault] at h ⊢
          exact h

theorem v4find_unique {turns turns' la : Nat} {res res' : Found × Net} (h : v4find w net turns la = some res)
    (h' : v4find w net turns' la = some res') : res = res' := by
  have h1 := v4find_mono h turns'
  have h2 := v4find_mono h' turns
  rw [Nat.add_comm] at h2
  exact some.inj (h1.symm.trans h2)

end Plan9.Ip
