/-
Walks while the tree changes: every interleaving of insertions, deletions and steps
of any number of walks.

A walk's node stays linked because `deleteavl` moves the walks off the node it takes
out (`walkdel`). `insertavl` does no such thing for the node it replaces: a walk on
that node is left on a node the caller is told to free. What follows is about runs in
which no insertion meets a walk on a node with its key, and the run that does is
`walk_left_behind`.

In a forward walk over which nodes are only deleted, what has been returned is in order
and splits the tree (`Forward`): up to the walk's node everything has been returned,
after it nothing has.
-/
import Plan9.Libavl.AvlRuns

namespace Plan9.Libavl

open Tree List

variable {A W K : Type} [DecidableEq A] [DecidableEq W] [LinearOrder K] {key : A → K} {cmp : A → A → Int}

/-- The nodes the root leads to. -/
inductive Heap.Linked (h : Heap A) : A → Prop
  | root {a : A} : h.load .root = some a → Linked h a
  | kid {q a : A} {i : Bool} : Linked h q → h.load (.n q i) = some a → Linked h a

variable {h : Heap A} {t₀ t t' : Avltree A W} {T T' : Tree A} {fuel : Nat} {R : List (Option A)} {xs ys : List A}
  {w : W} {v' v : Avlwalk A} {a : A}

namespace Avltree

/-! ## The system -/

inductive Op (A W : Type)
  | insertavl (new : A)
  | deleteavl (key : A)
  | avlwalk (w : W)
  | avlnext (w : W)
  | avlprev (w : W)
  | endwalk (w : W)

/-- A call, and the node it returns. A walk's address is new when it is opened, and a walk is open when it is used. -/
def exec (cmp : A → A → Int) (fuel : Nat) (t : Avltree A W) : Op A W → Option (Avltree A W × Option A)
  | .insertavl new => t.insertavl cmp fuel new
  | .deleteavl rx => t.deleteavl cmp fuel rx
  | .avlwalk w => if (t.walks.lookup w).isSome then none else some (t.avlwalk w, none)
  | .avlnext w => t.avlnext fuel w
  | .avlprev w => t.avlprev fuel w
  | .endwalk w => if (t.walks.lookup w).isSome then some (t.endwalk w, none) else none

/-- A call returns when it does with any fuel that is enough. -/
def Step (cmp : A → A → Int) (t : Avltree A W) (e : Op A W × Option A) (t' : Avltree A W) : Prop :=
  ∃ N, ∀ fuel, N ≤ fuel → exec cmp fuel t e.1 = some (t', e.2)

/-- No walk is on a node with the key of the one to be inserted. -/
def Clear (cmp : A → A → Int) (t : Avltree A W) : Op A W → Prop
  | .insertavl new => ∀ u ∈ t.walks, ∀ q, u.2.node = some q → cmp new q ≠ 0
  | _ => True

def Init (t : Avltree A W) : Prop := ∃ h, t = mkavltree h

/-! ## One call -/

/-- A walk that has not started is nowhere, and the node of any other is in the tree. -/
def WalkOK (T : Tree A) (v : Avlwalk A) : Prop := (v.started = false → v.node = none) ∧ ∀ q, v.node = some q → q ∈ T.toList

structure Inv (key : A → K) (t : Avltree A W) (T : Tree A) : Prop where
  holds : Holds key t T
  walks : ∀ u ∈ t.walks, WalkOK T u.2

/-- `avlnext`: the first node, or the one after. -/
def Next (T : Tree A) (v v' : Avlwalk A) : Prop :=
  (v.started = false ∧ v' = { v with node := T.toList.head?, started := true }) ∨
  (v.started = true ∧ ∃ q xs ys, v.node = some q ∧ T.toList = xs ++ q :: ys ∧ v' = { v with node := ys.head? })

omit [DecidableEq A] [DecidableEq W] in
theorem outermost_eq (H : Holds key t T) (hfuel : T.height < fuel) (i : Bool) :
    outermost fuel (!i) t = some (seq i T).head? := by
  rw [outermost, H.rep.load]
  cases hroot : T.root with
  | none =>
    cases T with
    | nil => rw [seq_nil]; rfl
    | node l a b r => cases hroot
  | some c =>
    have hd := Heap.descend_eq i H.hangs hroot (Nat.le_of_lt hfuel)
    have hne : seq i T ≠ [] := ne_nil_of_mem (mem_seq.2 (Heap.root_mem hroot))
    simp only [hd, head?_eq_some_head hne, Option.map_some]

omit [DecidableEq A] in
theorem neighbor_ne (hs : T.Sorted key) {q : A} (hxs : T.toList = xs ++ q :: ys) :
    q ∉ xs ∧ q ∉ ys := by
  have hn := hs.nodup
  rw [hxs, nodup_append] at hn
  exact ⟨fun hq => hn.2.2 q hq q (by simp) rfl, (nodup_cons.1 hn.2.1).1⟩

omit [DecidableEq W] in
theorem avlnext1_iff (H : Holds key t T) (hfuel : T.height < fuel) (hv : WalkOK T v) : avlnext1 fuel t v = some v' ↔ Next T v v' := by
  obtain ⟨started, moved, node⟩ := v
  rw [Next]
  cases started with
  | false =>
    rw [avlnext1, if_pos rfl, show outermost fuel false t = some T.toList.head? from outermost_eq H hfuel true]
    simp [eq_comm]
  | true =>
    cases node with
    | none => simp [avlnext1, Heap.findsuccessor, Heap.findneighbor]
    | some q =>
      have hafter : ∀ xs ys, T.toList = xs ++ q :: ys →
          avlnext1 fuel t ⟨true, moved, some q⟩ = some ⟨true, moved, ys.head?⟩ := by
        intro xs ys hxs
        rw [avlnext1, if_neg (by simp), Heap.findsuccessor_eq H.hangs hfuel hxs]
        exact if_neg (fun hq => (neighbor_ne H.sorted hxs).2 (mem_of_head? hq))
      constructor
      · obtain ⟨xs, ys, hxs⟩ := append_of_mem (hv.2 q rfl)
        intro h
        have heq := (hafter xs ys hxs).symm.trans h
        cases heq
        exact Or.inr ⟨rfl, q, xs, ys, rfl, hxs, rfl⟩
      · rintro (⟨⟨⟩, -⟩ | ⟨-, _, xs, ys, hq, hxs, rfl⟩)
        cases hq
        exact hafter xs ys hxs

omit [DecidableEq A] in
theorem Next.walkOK (h : Next T v v') : WalkOK T v' := by
  rcases h with ⟨hs, rfl⟩ | ⟨hs, q, _, _, hq, hxs, rfl⟩
  · exact ⟨nofun, fun q hq => mem_of_head? hq⟩
  · refine ⟨fun h => absurd (h.symm.trans hs) nofun, fun q hq => ?_⟩
    rw [hxs]
    simp [mem_of_head? hq]

omit [DecidableEq W] in
theorem avlprev1_walkOK (H : Holds key t T) (hfuel : T.height < fuel) (hv : WalkOK T v) (h : avlprev1 fuel t v = some v') : WalkOK T v' := by
  obtain ⟨started, moved, node⟩ := v
  rw [avlprev1] at h
  cases started with
  | false =>
    rw [if_pos rfl, show outermost fuel true t = some (seq false T).head? from outermost_eq H hfuel false] at h
    cases h
    exact ⟨by simp, fun q hq => mem_seq.1 (mem_of_head? hq)⟩
  | true =>
    cases moved with
    | true =>
      cases h
      exact hv
    | false =>
      cases node with
      | none => simp [Heap.findpredecessor, Heap.findneighbor] at h
      | some q =>
        obtain ⟨_, _, hxs⟩ := append_of_mem (hv.2 q rfl)
        rw [Heap.findpredecessor_eq H.hangs hfuel hxs] at h
        dsimp only at h
        rw [if_neg (fun hq => (neighbor_ne H.sorted hxs).1 (mem_of_getLast? hq))] at h
        cases h
        refine ⟨by simp, fun p hp => ?_⟩
        rw [hxs]
        simp [mem_of_getLast? hp]

/-- All a call can do, `T` the tree before it and `T'` the one after. -/
inductive Does (key : A → K) (t : Avltree A W) (T : Tree A) : Op A W × Option A → Avltree A W → Tree A → Prop
  | insertavl {new : A} {old : Option A} {t' : Avltree A W} {T' : Tree A} (H : Holds key t' T') (hw : t'.walks = t.walks)
    (hmem : ∀ x, x ∈ T'.toList ↔ x = new ∨ x ∈ T.toList ∧ key x ≠ key new)
    (hold : ∀ x, old = some x ↔ x ∈ T.toList ∧ key x = key new) : Does key t T (.insertavl new, old) t' T'
  | missed {rx : A} {t' : Avltree A W} {T' : Tree A} (H : Holds key t' T') (hw : t'.walks = t.walks)
    (hmem : ∀ x, x ∈ T'.toList ↔ x ∈ T.toList) : Does key t T (.deleteavl rx, none) t' T'
  | deleteavl {rx a : A} {xs ys : List A} {t' : Avltree A W} {T' : Tree A} (H : Holds key t' T')
    (hxs : T.toList = xs ++ a :: ys) (hmem : ∀ x, x ∈ T'.toList ↔ x ∈ xs ∨ x ∈ ys)
    (hw : t'.walks = t.walks.map (fun w => (w.1, walkdel1 a xs.getLast? w.2))) : Does key t T (.deleteavl rx, some a) t' T'
  | avlwalk {w : W} (hw : t.walks.lookup w = none) : Does key t T (.avlwalk w, none) (t.avlwalk w) T
  | avlnext {w : W} {v v' : Avlwalk A} (hw : t.walks.lookup w = some v) (hnext : Next T v v') :
    Does key t T (.avlnext w, v'.node) (t.setWalk w v') T
  | avlprev {w : W} {v v' : Avlwalk A} (hw : t.walks.lookup w = some v) (hv : WalkOK T v') :
    Does key t T (.avlprev w, v'.node) (t.setWalk w v') T
  | endwalk {w : W} : Does key t T (.endwalk w, none) (t.endwalk w) T

omit [DecidableEq A] [LinearOrder K] in
theorem mem_of_lookup {ws : List (W × Avlwalk A)} (h : ws.lookup w = some v) : (w, v) ∈ ws := by
  obtain ⟨_, _, rfl, -⟩ := lookup_eq_some_iff.1 h
  simp

omit [DecidableEq A] [LinearOrder K] in
theorem onWalk_eq_some {f : Avlwalk A → Option (Avlwalk A)} {out : Option A}
    (h : onWalk f t w = some (t', out)) :
    ∃ v v', t.walks.lookup w = some v ∧ f v = some v' ∧ t' = t.setWalk w v' ∧ out = v'.node := by
  rw [onWalk] at h
  cases hw : t.walks.lookup w with
  | none => rw [hw] at h; cases h
  | some v =>
    rw [hw] at h
    dsimp only at h
    cases hf : f v with
    | none => rw [hf] at h; cases h
    | some v' =>
      rw [hf] at h
      cases h
      exact ⟨v, v', rfl, hf, rfl, rfl⟩

theorem Step.does (hcmp : Orders cmp key) {e : Op A W × Option A} (I : Inv key t T)
    (h : Step cmp t e t') : ∃ T', Does key t T e t' T' := by
  obtain ⟨N, hN⟩ := h
  have hexec := hN (max N (T.height + 1)) (Nat.le_max_left _ _)
  have hfuel : T.height < max N (T.height + 1) := by omega
  generalize max N (T.height + 1) = fuel at hexec hfuel
  obtain ⟨op, _⟩ := e
  cases op with
  | insertavl new =>
    obtain ⟨t1, T1, old, heq, H1, hw, hmem, hold⟩ := I.holds.insertavl hcmp new hfuel
    cases heq.symm.trans hexec
    exact ⟨T1, .insertavl H1 hw hmem hold⟩
  | deleteavl rx =>
    obtain ⟨t1, T1, old, heq, H1, hmem, hold, hwalks⟩ := I.holds.deleteavl hcmp rx hfuel
    cases heq.symm.trans hexec
    rcases hwalks with ⟨rfl, hw⟩ | ⟨a, _, _, rfl, hxs, hw⟩
    · refine ⟨T1, .missed H1 hw (fun x => ?_)⟩
      grind
    · refine ⟨T1, .deleteavl H1 hxs (fun x => ?_) hw⟩
      have hne := neighbor_ne I.holds.sorted hxs
      grind
  | avlwalk w =>
    rw [exec] at hexec
    cases hw : t.walks.lookup w with
    | some v => rw [hw] at hexec; cases hexec
    | none =>
      rw [hw] at hexec
      cases hexec
      exact ⟨T, .avlwalk hw⟩
  | avlnext w =>
    obtain ⟨v, v', hw, hf, rfl, rfl⟩ := onWalk_eq_some hexec
    exact ⟨T, .avlnext hw ((avlnext1_iff I.holds hfuel (I.walks _ (mem_of_lookup hw))).1 hf)⟩
  | avlprev w =>
    obtain ⟨v, v', hw, hf, rfl, rfl⟩ := onWalk_eq_some hexec
    exact ⟨T, .avlprev hw (avlprev1_walkOK I.holds hfuel (I.walks _ (mem_of_lookup hw)) hf)⟩
  | endwalk w =>
    rw [exec] at hexec
    split at hexec
    · cases hexec
      exact ⟨T, .endwalk⟩
    · cases hexec

theorem walkdel1_walkOK (hxs : T.toList = xs ++ a :: ys)
    (hmem : ∀ x, x ∈ T'.toList ↔ x ∈ xs ∨ x ∈ ys) (hv : WalkOK T v) :
    WalkOK T' (walkdel1 a xs.getLast? v) := by
  rw [walkdel1]
  by_cases hnode : v.node = some a
  · rw [if_pos hnode]
    refine ⟨fun hf => ?_, fun q hq => (hmem q).2 (Or.inl (mem_of_getLast? hq))⟩
    split at hf
    · assumption
    · exact absurd (hv.1 hf) (by rw [hnode]; nofun)
  rw [if_neg hnode]
  refine ⟨hv.1, fun q hq => ?_⟩
  have hq' := hv.2 q hq
  grind

omit [DecidableEq A] in
theorem Inv.setWalk (I : Inv key t T) (w : W) (hv : WalkOK T v) :
    Inv key (t.setWalk w v) T := by
  refine ⟨⟨I.holds.rep, I.holds.balanced, I.holds.sorted⟩, fun u hu => ?_⟩
  obtain ⟨u0, hu0, rfl⟩ := mem_map.1 hu
  split
  · exact hv
  · exact I.walks u0 hu0

/-- **What a call keeps**, if it does not insert over a walk. -/
theorem Does.inv (hcmp : Orders cmp key) {e : Op A W × Option A} (I : Inv key t T)
    (h : Does key t T e t' T') (hclear : Clear cmp t e.1) : Inv key t' T' := by
  cases h with
  | @insertavl new old _ _ H hw hmem hold =>
    refine ⟨H, fun u hu => ⟨(I.walks u (hw ▸ hu)).1, fun q hq => (hmem q).2 (Or.inr ?_)⟩⟩
    refine ⟨(I.walks u (hw ▸ hu)).2 q hq, fun hk => ?_⟩
    exact hclear u (hw ▸ hu) q hq (hcmp.eq_zero hk.symm)
  | @missed rx _ _ H hw hmem =>
    exact ⟨H, fun u hu => ⟨(I.walks u (hw ▸ hu)).1, fun q hq => (hmem q).2 ((I.walks u (hw ▸ hu)).2 q hq)⟩⟩
  | @deleteavl rx a xs ys _ _ H hxs hmem hw =>
    refine ⟨H, fun u hu => ?_⟩
    rw [hw] at hu
    obtain ⟨u0, hu0, rfl⟩ := mem_map.1 hu
    exact walkdel1_walkOK hxs hmem (I.walks u0 hu0)
  | @avlwalk w hw =>
    refine ⟨⟨I.holds.rep, I.holds.balanced, I.holds.sorted⟩, fun u hu => ?_⟩
    rcases mem_cons.1 hu with rfl | hu
    · exact ⟨fun _ => rfl, nofun⟩
    · exact I.walks u hu
  | @avlnext w v v' hw hnext => exact I.setWalk w hnext.walkOK
  | @avlprev w v v' hw hv => exact I.setWalk w hv
  | @endwalk w =>
    refine ⟨⟨I.holds.rep, I.holds.balanced, I.holds.sorted⟩, fun u hu => I.walks u (mem_of_mem_eraseP hu)⟩

/-- What a call returns through `oldp` no walk is on. -/
theorem Does.off_old (hcmp : Orders cmp key) {e : Op A W × Option A}
    (I : Inv key t T) (h : Does key t T e t' T') (hop : (∃ new, e.1 = .insertavl new) ∨ ∃ rx, e.1 = .deleteavl rx)
    (hclear : Clear cmp t e.1) (ha : e.2 = some a) : ∀ u ∈ t'.walks, u.2.node ≠ some a := by
  have I' := h.inv hcmp I hclear
  intro u hu hnode
  have hlinked := (I'.walks u hu).2 a hnode
  cases h with
  | @insertavl new old _ _ H hw hmem hold =>
    exact hclear u (hw ▸ hu) a hnode (hcmp.eq_zero ((hold a).1 ha).2.symm)
  | @missed rx _ _ H hw hmem => cases ha
  | @deleteavl rx a' xs ys _ _ H hxs hmem hw =>
    cases ha
    have hne := neighbor_ne I.holds.sorted hxs
    exact ((hmem a).1 hlinked).elim hne.1 hne.2
  | avlwalk hw => cases ha
  | avlnext hw hnext => simp at hop
  | avlprev hw hv => simp at hop
  | endwalk => cases ha

end Avltree

/-! ## Linked -/

namespace Heap

omit [DecidableEq A] in
theorem Rep.kid_mem : ∀ {t : Tree A} {tp : Place A} {q a : A} {i : Bool}, Rep h tp t → q ∈ t.toList →
    h.load (.n q i) = some a → a ∈ t.toList := by
  intro t
  induction t with
  | nil => intro tp q a i _ hq; simp at hq
  | node l c b r ihl ihr =>
    rintro tp q a i ⟨-, -, -, hl, hr⟩ hq hload
    rw [mem_node] at hq ⊢
    rcases hq with hq | rfl | hq
    · exact Or.inl (ihl hl hq hload)
    · cases i with
      | false => exact Or.inl (root_mem (hl.load.symm.trans hload))
      | true => exact Or.inr (Or.inr (root_mem (hr.load.symm.trans hload)))
    · exact Or.inr (Or.inr (ihr hr hq hload))

omit [DecidableEq A] in
theorem Rep.linked_of_mem : ∀ {t : Tree A} {tp : Place A}, Rep h tp t → (∀ a, t.root = some a → Linked h a) →
    ∀ {x : A}, x ∈ t.toList → Linked h x := by
  intro t
  induction t with
  | nil => intro tp _ _ x hx; simp at hx
  | node l c b r ihl ihr =>
    rintro tp ⟨-, -, -, hl, hr⟩ hroot x hx
    have hc := hroot c rfl
    rw [mem_node] at hx
    rcases hx with hx | rfl | hx
    · exact ihl hl (fun a ha => .kid hc (hl.load.trans ha)) hx
    · exact hc
    · exact ihr hr (fun a ha => .kid hc (hr.load.trans ha)) hx

omit [DecidableEq A] in
theorem Rep.linked_iff {t : Tree A} (H : Rep h .root t) (x : A) : Linked h x ↔ x ∈ t.toList := by
  constructor
  · intro hx
    induction hx with
    | root hload => exact root_mem (H.load.symm.trans hload)
    | kid _ hload ih => exact H.kid_mem ih hload
  · exact fun hx => H.linked_of_mem (fun a ha => .root (H.load.trans ha)) hx

end Heap

namespace Avltree

/-! ## Forward walks -/

/-- What the calls of `avlnext` on a walk returned. -/
def returned (w : W) (log : List (Op A W × Option A)) : List (Option A) :=
  log.filterMap (fun e => match e.1 with
    | .avlnext w' => if w' = w then some e.2 else none
    | _ => none)

/-- Nothing is inserted, and the walk only goes forward. -/
def OnlyDeletes (w : W) : Op A W → Prop
  | .insertavl _ => False
  | .avlprev w' | .endwalk w' => w' ≠ w
  | _ => True

/-- Where a forward walk is that has returned `R`. -/
inductive At (key : A → K) (R : List (Option A)) (T : Tree A) : Avlwalk A → Prop
  | start {moved : Bool} (hR : none ∉ R) (hlt : ∀ x ∈ T.toList, ∀ a, some a ∈ R → key a < key x) :
    At key R T ⟨false, moved, none⟩
  | node {moved : Bool} {q : A} (hR : none ∉ R) (hq : q ∈ T.toList) (hle : ∀ x ∈ T.toList, key x ≤ key q → some x ∈ R)
    (hlt : ∀ x ∈ T.toList, key q < key x → ∀ a, some a ∈ R → key a < key x) : At key R T ⟨true, moved, some q⟩
  | done {moved : Bool} (hR : none ∈ R) (hall : ∀ x ∈ T.toList, some x ∈ R) : At key R T ⟨true, moved, none⟩

structure Forward (key : A → K) (t₀ : Avltree A W) (w : W) (R : List (Option A)) (t : Avltree A W) (T : Tree A) : Prop where
  inv : Inv key t T
  pos : ∃ v, t.walks.lookup w = some v ∧ At key R T v
  sorted : (R.filterMap id).Pairwise (key · < key ·)
  sub : ∀ x ∈ T.toList, t₀.heap.Linked x
  linked : ∀ x, some x ∈ R → t₀.heap.Linked x

omit [DecidableEq A] in
theorem At.mono (h : At key R T v) (hsub : ∀ x ∈ T'.toList, x ∈ T.toList)
    (hnode : ∀ q, v.node = some q → q ∈ T'.toList) : At key R T' v := by
  cases h with
  | start hR hlt => exact .start hR (fun x hx => hlt x (hsub x hx))
  | node hR hq hle hlt => exact .node hR (hnode _ rfl) (fun x hx => hle x (hsub x hx)) (fun x hx => hlt x (hsub x hx))
  | done hR hall => exact .done hR (fun x hx => hall x (hsub x hx))

theorem At.walkdel1 (hs : T.Sorted key)
    (hxs : T.toList = xs ++ a :: ys) (hmem : ∀ x, x ∈ T'.toList ↔ x ∈ xs ∨ x ∈ ys) (h : At key R T v)
    (hok : WalkOK T' (walkdel1 a xs.getLast? v)) : At key R T' (walkdel1 a xs.getLast? v) := by
  have hsub : ∀ x ∈ T'.toList, x ∈ T.toList := by
    intro x hx
    rw [hxs]
    exact ((hmem x).1 hx).elim (fun h => by simp [h]) (fun h => by simp [h])
  by_cases hnode : v.node = some a
  · rw [Sorted, hxs] at hs
    obtain ⟨hsx, hsy, hxy⟩ := pairwise_append.1 hs
    have hay := (pairwise_cons.1 hsy).1
    cases h with
    | start => cases hnode
    | done => cases hnode
    | @node moved q hR hq hle hlt =>
      cases hnode
      rw [Avltree.walkdel1, if_pos rfl]
      rcases eq_nil_or_concat xs with rfl | ⟨xs, p, rfl⟩
      · refine .start hR (fun x hx => ?_)
        have hx' := ((hmem x).1 hx).resolve_left (by simp)
        exact hlt x (hsub x hx) (hay x hx')
      rw [concat_eq_append] at *
      rw [getLast?_concat]
      have hp : key p < key a := hxy p (by simp) a (by simp)
      refine .node hR ((hmem p).2 (Or.inl (by simp))) (fun x hx hxp => ?_) (fun x hx hpx => ?_)
      · exact hle x (hsub x hx) (le_of_lt (lt_of_le_of_lt hxp hp))
      refine hlt x (hsub x hx) ?_
      rcases (hmem x).1 hx with hx' | hx'
      · have hxp : key x ≤ key p := by
          rcases mem_append.1 hx' with hx' | hx'
          · exact le_of_lt ((pairwise_append.1 hsx).2.2 x hx' p (by simp))
          · rw [mem_singleton.1 hx']
        exact absurd hpx (not_lt.2 hxp)
      · exact hay x hx'
  · rw [Avltree.walkdel1, if_neg hnode] at hok ⊢
    exact h.mono hsub hok.2

omit [DecidableEq A] in
theorem At.arrive (hs : T.Sorted key) {zs : List A} (hxs : T.toList = xs ++ zs)
    (moved : Bool) (hR : none ∉ R) (hle : ∀ x ∈ xs, some x ∈ R) (hlt : ∀ x ∈ zs, ∀ a, some a ∈ R → key a < key x) :
    At key (R ++ [zs.head?]) T ⟨true, moved, zs.head?⟩ := by
  rw [Sorted, hxs] at hs
  obtain ⟨-, hsz, hxz⟩ := pairwise_append.1 hs
  cases zs with
  | nil =>
    refine .done (by simp) (fun x hx => ?_)
    rw [hxs, append_nil] at hx
    simp [hle x hx]
  | cons z zs =>
    have hz := (pairwise_cons.1 hsz).1
    refine .node (by simpa using hR) (by simp [hxs]) (fun x hx hxz' => ?_) (fun x hx hzx a ha => ?_)
    · rw [hxs, mem_append, mem_cons] at hx
      rcases hx with hx | rfl | hx
      · simp [hle x hx]
      · simp
      · exact absurd (hz x hx) (not_lt.2 hxz')
    rw [hxs, mem_append, mem_cons] at hx
    have hx' : x ∈ zs := by
      rcases hx with hx | rfl | hx
      · exact absurd (hxz x hx z (by simp)) (lt_asymm hzx)
      · exact absurd hzx (lt_irrefl _)
      · exact hx
    rcases mem_append.1 ha with ha | ha
    · exact hlt x (by simp [hx']) a ha
    · cases mem_singleton.1 ha
      exact hz x hx'

omit [DecidableEq A] in
theorem At.next (hs : T.Sorted key) (h : At key R T v)
    (hnext : Next T v v') : none ∉ R ∧ At key (R ++ [v'.node]) T v' ∧
      ∀ x, v'.node = some x → x ∈ T.toList ∧ ∀ a, some a ∈ R → key a < key x := by
  cases h with
  | @start moved hR hlt =>
    rcases hnext with ⟨-, rfl⟩ | ⟨⟨⟩, -⟩
    refine ⟨hR, .arrive hs (nil_append _).symm moved hR (by simp) hlt, fun x hx => ?_⟩
    have hmem := mem_of_head? hx
    exact ⟨hmem, hlt x hmem⟩
  | @node moved q hR hq hle hlt =>
    rcases hnext with ⟨⟨⟩, -⟩ | ⟨-, q', xs, ys, hq', hxs, rfl⟩
    cases hq'
    have hxs' : T.toList = (xs ++ [q]) ++ ys := by rw [hxs]; simp
    have hs' := hs
    rw [Sorted, hxs] at hs'
    obtain ⟨-, hsy, hxy⟩ := pairwise_append.1 hs'
    have hlt' : ∀ x ∈ ys, ∀ a, some a ∈ R → key a < key x :=
      fun x hx => hlt x (by simp [hxs, hx]) ((pairwise_cons.1 hsy).1 x hx)
    refine ⟨hR, .arrive hs hxs' moved hR (fun x hx => ?_) hlt', fun x hx => ?_⟩
    · rcases mem_append.1 hx with hx | hx
      · exact hle x (by simp [hxs, hx]) (le_of_lt (hxy x hx q (by simp)))
      · rw [mem_singleton.1 hx]
        exact hle q hq (le_refl _)
    · have hmem := mem_of_head? hx
      exact ⟨by simp [hxs, hmem], hlt' x hmem⟩
  | done hR hall =>
    rcases hnext with ⟨⟨⟩, -⟩ | ⟨-, q', xs, ys, ⟨⟩, -⟩

omit [DecidableEq A] [LinearOrder K] in
theorem returned_snoc (w : W) (log : List (Op A W × Option A)) (e : Op A W × Option A) :
    returned w (log ++ [e]) = returned w log ++ returned w [e] := by
  simp [returned, filterMap_append]

omit [DecidableEq A] [LinearOrder K] in
theorem lookup_map (f : Avlwalk A → Avlwalk A) (ws : List (W × Avlwalk A)) (w : W) :
    (ws.map (fun u => (u.1, f u.2))).lookup w = (ws.lookup w).map f := by
  induction ws with
  | nil => rfl
  | cons u ws ih =>
    rw [map_cons, lookup_cons, lookup_cons, ih]
    cases w == u.1 <;> rfl

omit [DecidableEq A] [LinearOrder K] in
theorem lookup_setWalk (w w' : W) (v : Avlwalk A) (ws : List (W × Avlwalk A)) :
    (ws.map (fun u => if u.1 = w' then (w', v) else u)).lookup w =
      if w' = w then (ws.lookup w).map (fun _ => v) else ws.lookup w := by
  induction ws with
  | nil => simp
  | cons u ws ih =>
    grind

omit [DecidableEq A] [LinearOrder K] in
theorem lookup_eraseP {w' : W} (hne : w' ≠ w) (ws : List (W × Avlwalk A)) :
    (ws.eraseP (·.1 = w')).lookup w = ws.lookup w := by
  induction ws with
  | nil => rfl
  | cons u ws ih =>
    grind

omit [DecidableEq A] in
theorem Forward.keep (F : Forward key t₀ w R t T)
    (I : Inv key t' T') (hsub : ∀ x ∈ T'.toList, x ∈ T.toList) (hv : t'.walks.lookup w = some v)
    (hat : At key R T' v) : Forward key t₀ w R t' T' :=
  ⟨I, ⟨v, hv, hat⟩, F.sorted, fun x hx => F.sub x (hsub x hx), F.linked⟩

theorem Forward.step (hcmp : Orders cmp key)
    {e : Op A W × Option A} (F : Forward key t₀ w R t T) (hop : OnlyDeletes w e.1) (h : Step cmp t e t') :
    ∃ T', Forward key t₀ w (R ++ returned w [e]) t' T' := by
  obtain ⟨T', hdoes⟩ := h.does hcmp F.inv
  have hclear : Clear cmp t e.1 := by
    obtain ⟨op, _⟩ := e
    cases op <;> trivial
  have I' := hdoes.inv hcmp F.inv hclear
  obtain ⟨v, hv, hat⟩ := F.pos
  refine ⟨T', ?_⟩
  cases hdoes with
  | insertavl H hw hmem hold => exact hop.elim
  | @missed rx _ _ H hw hmem =>
    rw [show returned w [(Op.deleteavl rx, (none : Option A))] = [] from rfl, append_nil]
    have hsub : ∀ x ∈ T'.toList, x ∈ T.toList := fun x hx => (hmem x).1 hx
    refine F.keep I' hsub (by rw [hw]; exact hv) (hat.mono hsub (fun q hq => ?_))
    exact (hmem q).2 ((F.inv.walks _ (mem_of_lookup hv)).2 q hq)
  | @deleteavl rx a xs ys _ _ H hxs hmem hw =>
    rw [show returned w [(Op.deleteavl rx, some a)] = [] from rfl, append_nil]
    have hv' : t'.walks.lookup w = some (walkdel1 a xs.getLast? v) := by rw [hw, lookup_map, hv]; rfl
    refine F.keep I' (fun x hx => ?_) hv' (hat.walkdel1 F.inv.holds.sorted hxs hmem (I'.walks _ (mem_of_lookup hv')))
    grind
  | @avlwalk w' hw =>
    rw [show returned w [(Op.avlwalk w', (none : Option A))] = [] from rfl, append_nil]
    refine F.keep I' (fun x hx => hx) ?_ hat
    have hne : w ≠ w' := by
      rintro rfl
      rw [hw] at hv
      cases hv
    rw [Avltree.avlwalk, lookup_cons, beq_false_of_ne hne]
    exact hv
  | @avlnext w' u u' hw hnext =>
    by_cases hww : w' = w
    · subst hww
      cases hw.symm.trans hv
      obtain ⟨-, hat', hlast⟩ := hat.next F.inv.holds.sorted hnext
      have hret : returned w' [(Op.avlnext w', u'.node)] = [u'.node] := by simp [returned]
      rw [hret]
      refine ⟨I', ⟨u', ?_, hat'⟩, ?_, F.sub, fun x hx => ?_⟩
      · rw [setWalk, lookup_setWalk, if_pos rfl, hw]
        rfl
      · rw [filterMap_append, pairwise_append]
        refine ⟨F.sorted, ?_, ?_⟩
        · cases u'.node <;> simp
        intro a ha x hx
        have hx' : u'.node = some x := by
          cases hu : u'.node <;> simp_all
        have ha' : some a ∈ R := by simpa using ha
        exact (hlast x hx').2 a ha'
      · rcases mem_append.1 hx with hx | hx
        · exact F.linked x hx
        · exact F.sub x (hlast x (mem_singleton.1 hx).symm).1
    have hret : returned w [(Op.avlnext w', u'.node)] = [] := by simp [returned, hww]
    rw [hret, append_nil]
    refine F.keep I' (fun x hx => hx) ?_ hat
    rw [setWalk, lookup_setWalk, if_neg hww]
    exact hv
  | @avlprev w' u u' hw hok =>
    have hret : returned w [(Op.avlprev w', u'.node)] = [] := rfl
    rw [hret, append_nil]
    refine F.keep I' (fun x hx => hx) ?_ hat
    rw [setWalk, lookup_setWalk, if_neg hop]
    exact hv
  | @endwalk w' =>
    rw [show returned w [(Op.endwalk w', (none : Option A))] = [] from rfl, append_nil]
    refine F.keep I' (fun x hx => hx) ?_ hat
    rw [Avltree.endwalk, lookup_eraseP hop]
    exact hv

/-! ## Runs -/

omit [DecidableEq W] in
theorem inv_init (h : Init t) : Inv key t nil := by
  obtain ⟨h, rfl⟩ := h
  exact ⟨holds_mkavltree h, nofun⟩

theorem reachable_inv (hcmp : Orders cmp key)
    (h : Trans.Reachable Init (fun t e t' => Step cmp t e t' ∧ Clear cmp t e.1) t) : ∃ T, Inv key t T := by
  refine h.invariant (fun t => ∃ T, Inv key t T) (fun t ht => ⟨nil, inv_init ht⟩) ?_
  rintro t e t' ⟨T, I⟩ ⟨hstep, hclear⟩
  obtain ⟨T', hdoes⟩ := hstep.does hcmp I
  exact ⟨T', hdoes.inv hcmp I hclear⟩

theorem Forward.path (hcmp : Orders cmp key) (I : Inv key t T)
    (hw : t.walks.lookup w = none) {log : List (Op A W × Option A)} (hpath : Trans.Path (Step cmp) (t.avlwalk w) log t')
    (hlog : ∀ e ∈ log, OnlyDeletes w e.1) : ∃ T', Forward key t w (returned w log) t' T' := by
  refine hpath.invariant (fun log t' => ∃ T', Forward key t w (returned w log) t' T') ?_ ?_ hlog
  · have hopen : Does key t T (.avlwalk w, none) (t.avlwalk w) T := .avlwalk hw
    refine ⟨T, hopen.inv hcmp I trivial, ⟨⟨false, false, none⟩, ?_, .start (by simp [returned]) (by simp [returned])⟩, ?_, ?_, ?_⟩
    · simp [Avltree.avlwalk]
    · exact List.Pairwise.nil
    · exact fun x hx => (I.holds.rep.linked_iff x).2 hx
    · simp [returned]
  · rintro log t1 e t2 ⟨T1, F⟩ hop hstep
    rw [returned_snoc]
    exact F.step hcmp hop hstep

/-- A walk that has not returned nil can go on. -/
theorem Forward.progress (F : Forward key t₀ w R t T)
    (hR : none ∉ R) : ∃ a t', Step cmp t (.avlnext w, a) t' := by
  obtain ⟨v, hv, hat⟩ := F.pos
  have hnext : ∃ v', Next T v v' := by
    cases hat with
    | start => exact ⟨_, Or.inl ⟨rfl, rfl⟩⟩
    | @node moved q _ hq =>
      obtain ⟨xs, ys, hxs⟩ := append_of_mem hq
      exact ⟨_, Or.inr ⟨rfl, q, xs, ys, rfl, hxs, rfl⟩⟩
    | done hR' => exact absurd hR' hR
  obtain ⟨v', hnext⟩ := hnext
  refine ⟨v'.node, t.setWalk w v', T.height + 1, fun fuel hfuel => ?_⟩
  have hf := (avlnext1_iff F.inv.holds hfuel (F.inv.walks _ (mem_of_lookup hv))).2 hnext
  show onWalk (avlnext1 fuel t) t w = _
  rw [onWalk, hv]
  dsimp only
  rw [hf]

/-- **Walks**, in runs that do not insert over one. Their nodes are linked, and not what was returned to be freed. A
walk that only goes forward while nodes are only deleted returns nodes in order, can go on until it has returned nil, and
has then returned all that are still linked. -/
theorem walks_linked (hcmp : Orders cmp key) {t : Avltree A W}
    (hr : Trans.Reachable Init (fun t e t' => Step cmp t e t' ∧ Clear cmp t e.1) t) :
    (∀ u ∈ t.walks, ∀ q, u.2.node = some q → t.heap.Linked q) ∧
    (∀ e t' a, Step cmp t e t' → Clear cmp t e.1 → ((∃ new, e.1 = .insertavl new) ∨ ∃ rx, e.1 = .deleteavl rx) →
      e.2 = some a → ∀ u ∈ t'.walks, u.2.node ≠ some a) ∧
    ∀ w log t', t.walks.lookup w = none → Trans.Path (Step cmp) (t.avlwalk w) log t' → (∀ e ∈ log, OnlyDeletes w e.1) →
      ((returned w log).filterMap id).Pairwise (key · < key ·) ∧ (∀ x, some x ∈ returned w log → t.heap.Linked x) ∧
      (none ∉ returned w log → ∃ a t'', Step cmp t' (.avlnext w, a) t'') ∧
      (none ∈ returned w log → ∀ x, t'.heap.Linked x → some x ∈ returned w log) := by
  obtain ⟨T, I⟩ := reachable_inv hcmp hr
  refine ⟨fun u hu q hq => ?_, fun e t' a hstep hclear hop ha => ?_, fun w log t' hw hpath hlog => ?_⟩
  · exact (I.holds.rep.linked_iff q).2 ((I.walks u hu).2 q hq)
  · obtain ⟨T', hdoes⟩ := hstep.does hcmp I
    exact hdoes.off_old hcmp I hop hclear ha
  obtain ⟨T', F⟩ := Forward.path hcmp I hw hpath hlog
  refine ⟨F.sorted, F.linked, F.progress, fun hnone x hx => ?_⟩
  obtain ⟨v, -, hat⟩ := F.pos
  have hx' := (F.inv.holds.rep.linked_iff x).1 hx
  cases hat with
  | start hR => exact absurd hnone hR
  | node hR => exact absurd hnone hR
  | done _ hall => exact hall x hx'

/-- The state after a call that returns. -/
def after (t : Avltree Nat Unit) (op : Op Nat Unit) : Avltree Nat Unit := ((exec halves 3 t op).map Prod.fst).getD t

theorem step_after {t : Avltree Nat Unit} {op : Op Nat Unit} {out : Option Nat}
    (h : ∀ k, exec halves (k + 3) t op = some (after t op, out)) : Step halves t (op, out) (after t op) := by
  refine ⟨3, fun fuel hfuel => ?_⟩
  obtain ⟨k, rfl⟩ : ∃ k, fuel = k + 3 := ⟨fuel - 3, by omega⟩
  exact h k

/-- One node and a walk on it. -/
def parked : Avltree Nat Unit :=
  after (after (after (mkavltree ⟨fun _ => none, fun _ => none, fun _ => 0⟩) (.insertavl 0)) (.avlwalk ())) (.avlnext ())

theorem reachable_parked : Trans.Reachable Init (fun t e t' => Step halves t e t' ∧ Clear halves t e.1) parked := by
  refine .next (a := (.avlnext (), some 0)) (.next (a := (.avlwalk (), none)) (.next (a := (.insertavl 0, none)) (.start ⟨_, rfl⟩)
    ⟨step_after (fun k => rfl), nofun⟩) ⟨step_after (fun k => rfl), trivial⟩) ⟨step_after (fun k => rfl), trivial⟩

theorem walks_linked_parked : Trans.Reachable Init (fun t e t' => Step halves t e t' ∧ Clear halves t e.1) parked ∧
    parked.heap.Linked 0 := by
  refine ⟨reachable_parked, ?_⟩
  exact (walks_linked orders_halves reachable_parked).1 ((), ⟨true, false, some 0⟩) (mem_singleton.2 rfl) 0 rfl

/-- The node is replaced, returned to be freed, and the walk still on it. -/
theorem walk_left_behind : Trans.Reachable Init (Step halves) parked ∧
    ∃ t' : Avltree Nat Unit, Step halves parked (.insertavl 1, some 0) t' ∧
      ∃ u ∈ t'.walks, u.2.node = some 0 ∧ ¬ t'.heap.Linked 0 := by
  refine ⟨reachable_parked.mono (fun _ _ _ h => h.1), after parked (.insertavl 1), step_after (fun k => rfl),
    ((), ⟨true, false, some 0⟩), mem_singleton.2 rfl, rfl, ?_⟩
  have H : (after parked (.insertavl 1)).heap.Rep .root (node nil 1 0 nil) := ⟨rfl, rfl, rfl, rfl, rfl⟩
  rw [H.linked_iff]
  decide

end Avltree

end Plan9.Libavl
