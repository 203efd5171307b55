/-
Search and neighbors: `_lookupavl` finds the node with the key or stops beside where
it would be, and `findpredecessor` and `findsuccessor` are the node before and
after.

Both ways are one: `seq i` is the list of nodes in the order in which `n[i]` comes
after, and `findneighbor i` is the next in it. Going up the loop takes no notice of
where in the tree it is; `up` is what it would return from the top of the tree at
hand, and the induction is on that tree.
-/
import Plan9.Libavl.AvlFacts

namespace Plan9.Libavl

open Tree List

variable {A : Type}

variable {t : Tree A}

namespace Tree

def kid (i : Bool) : Tree A → Tree A
  | nil => nil
  | node l _ _ r => if i then r else l

def seq (i : Bool) (t : Tree A) : List A := if i then t.toList else t.toList.reverse

@[simp] theorem seq_nil (i : Bool) : seq i (nil : Tree A) = [] := by
  cases i <;> rfl

theorem seq_node (i : Bool) (l r : Tree A) (a : A) (b : Int) :
    seq i (node l a b r) = seq i (kid (!i) (node l a b r)) ++ a :: seq i (kid i (node l a b r)) := by
  cases i <;> simp [seq, kid, toList]

@[simp] theorem mem_seq {i : Bool} {x : A} : x ∈ seq i t ↔ x ∈ t.toList := by
  cases i <;> simp [seq]

theorem height_kid (i : Bool) (l r : Tree A) (a : A) (b : Int) :
    (kid i (node l a b r)).height + 1 ≤ (node l a b r).height := by
  cases i <;> simp only [kid, height, if_true, Bool.false_eq_true, if_false] <;> omega

end Tree

namespace Heap

variable {h : Heap A} {a : A} {fuel : Nat} {xs ys : List A}

theorem Hangs.kid {tp : Place A} {l r : Tree A} {b : Int} (H : Hangs h tp (node l a b r)) (i : Bool) :
    Hangs h (.n a i) ((node l a b r).kid i) := by
  cases i with
  | false => exact H.left
  | true => exact H.right

theorem Hangs.kids_disjoint {tp : Place A} {l r : Tree A} {b : Int} (H : Hangs h tp (node l a b r))
    (i : Bool) : ∀ x ∈ ((node l a b r).kid (!i)).toList, x ∉ ((node l a b r).kid i).toList := by
  obtain ⟨-, -, -, -, hlr⟩ := nodup_node.1 H.nodup
  cases i with
  | false => exact fun x hx hx' => hlr x hx' hx
  | true => exact hlr

theorem Hangs.p_root {tp : Place A} (H : Hangs h tp t) {c : A} (hc : t.root = some c) :
    h.p c = tp.owner := by
  cases t with
  | nil => cases hc
  | node l a b r => cases hc; exact H.rep.2.1

/-! ## Neighbors -/

theorem descend_eq (i : Bool) : ∀ {fuel : Nat} {t : Tree A} {tp : Place A} {c : A}, Hangs h tp t →
    t.root = some c → t.height ≤ fuel → descend (!i) h fuel c = (seq i t).head? := by
  intro fuel
  induction fuel with
  | zero =>
    intro t tp c H hc hfuel
    cases t with
    | nil => cases hc
    | node l a b r => simp [height] at hfuel
  | succ fuel ih =>
    intro t tp c H hc hfuel
    cases t with
    | nil => cases hc
    | node l c b r =>
      cases hc
      have hk := H.kid (!i)
      have hh := height_kid (!i) l r c b
      rw [descend, hk.rep.load, seq_node]
      generalize (node l c b r).kid (!i) = u at hk hh
      cases u with
      | nil => rw [Tree.root, seq_nil]; rfl
      | node l' d b' r' =>
        have hd := ih hk rfl (show (node l' d b' r').height ≤ fuel by omega)
        have hne : seq i (node l' d b' r') ≠ [] := ne_nil_of_mem (mem_seq.2 (root_mem rfl))
        rw [head?_append_of_ne_nil _ hne]
        exact hd

variable [DecidableEq A]

/-- `findneighbor` in a tree from whose top `climb` goes to `up`. -/
theorem findneighbor_eq (i : Bool) : ∀ (n m : Nat) (up : Option A) {t : Tree A} {tp : Place A},
    t.height ≤ n → Hangs h tp t → (∀ c, t.root = some c → ∀ k, m ≤ k → climb i h k c = some up) → m + t.height ≤ fuel →
    ∀ {xs ys : List A} {a : A}, seq i t = xs ++ a :: ys → findneighbor i h fuel (some a) = some (ys.head?.or up) := by
  intro n
  induction n with
  | zero =>
    intro m up t tp hn H hup hfuel xs ys a hseq
    cases t with
    | nil => simp at hseq
    | node l c b r => simp [height] at hn
  | succ n ih =>
    intro m up t tp hn H hup hfuel xs ys a hseq
    cases t with
    | nil => simp at hseq
    | node l c b r =>
      have hnear := H.kid (!i)
      have hfar := H.kid i
      have hhn := height_kid (!i) l r c b
      have hhf := height_kid i l r c b
      have hc := hup c rfl
      rw [seq_node] at hseq
      have hdis := H.kids_disjoint i
      generalize (node l c b r).kid (!i) = u at hnear hhn hseq hdis
      generalize (node l c b r).kid i = v at hfar hhf hseq hdis
      have htop : a = c → ys = seq i v → findneighbor i h fuel (some a) = some (ys.head?.or up) := by
        rintro rfl rfl
        rw [findneighbor, hfar.rep.load]
        cases v with
        | nil => rw [Tree.root, seq_nil]; exact hc fuel (by omega)
        | node l' d b' r' =>
          have hd := descend_eq i hfar rfl (show (node l' d b' r').height ≤ fuel by omega)
          have hne : seq i (node l' d b' r') ≠ [] := ne_nil_of_mem (mem_seq.2 (root_mem rfl))
          rw [Tree.root]
          simp only [hd, head?_eq_some_head hne, Option.map_some, Option.some_or]
      rcases append_eq_append_iff.1 hseq with ⟨zs, rfl, hzs⟩ | ⟨zs, hzs, hrest⟩
      · cases zs with
        | nil =>
          cases hzs
          exact htop rfl rfl
        | cons z zs =>
          -- on the far side the climb comes through the top
          obtain ⟨rfl, hv⟩ := cons.inj hzs
          refine ih (m + 1) up (show v.height ≤ n by omega) hfar ?_ (by omega) hv
          intro d hd k hk
          obtain ⟨k, rfl⟩ : ∃ j, k = j + 1 := ⟨k - 1, by omega⟩
          rw [climb, hfar.p_root hd]
          exact (if_pos (hfar.rep.load.trans hd)).trans (hc k (by omega))
      cases zs with
      | nil =>
        cases hrest
        exact htop rfl rfl
      | cons z zs =>
        -- on the near side it stops at the top
        cases hrest
        rw [ih 1 (some c) (show u.height ≤ n by omega) hnear ?_ (by omega) hzs]
        · cases zs <;> rfl
        intro d hd k hk
        obtain ⟨k, rfl⟩ : ∃ j, k = j + 1 := ⟨k - 1, by omega⟩
        rw [climb, hnear.p_root hd]
        exact if_neg (fun hv => hdis d (root_mem hd) (root_mem (hfar.rep.load.symm.trans hv)))

/-- **Neighbors**: the next node in the order. -/
theorem findneighbor_root (i : Bool) (H : Hangs h .root t) (hfuel : t.height < fuel) (hseq : seq i t = xs ++ a :: ys) : findneighbor i h fuel (some a) = some ys.head? := by
  rw [findneighbor_eq i t.height 1 none le_rfl H ?_ (by omega) hseq, Option.or_none]
  intro c hc k hk
  obtain ⟨k, rfl⟩ : ∃ j, k = j + 1 := ⟨k - 1, by omega⟩
  rw [climb, H.p_root hc]
  rfl

theorem findsuccessor_eq (H : Hangs h .root t) (hfuel : t.height < fuel) (hlist : t.toList = xs ++ a :: ys) : h.findsuccessor fuel (some a) = some ys.head? :=
  findneighbor_root true H hfuel hlist

theorem findpredecessor_eq (H : Hangs h .root t) (hfuel : t.height < fuel) (hlist : t.toList = xs ++ a :: ys) : h.findpredecessor fuel (some a) = some xs.getLast? := by
  have hseq : seq false t = ys.reverse ++ a :: xs.reverse := by simp [seq, hlist]
  rw [findpredecessor, findneighbor_root false H hfuel hseq, head?_reverse]

/-! ## Lookup -/

section

variable {K : Type} [LinearOrder K] {key : A → K} {cmp : A → A → Int}

/-- Where the loop of `_lookupavl` ends: at the node with the key, or at one beside where it would be. -/
inductive Found (key : A → K) (r : A) (xs : List A) : A ⊕ A × Int → Prop
  | equal {a : A} (ha : a ∈ xs) (hk : key a = key r) : Found key r xs (.inl a)
  | below {ys zs : List A} {q : A} (hxs : xs = ys ++ q :: zs) (hq : key q < key r) (hys : ∀ y ∈ ys, key y < key r)
    (hzs : ∀ z ∈ zs, key r < key z) : Found key r xs (.inr (q, 1))
  | above {ys zs : List A} {q : A} (hxs : xs = ys ++ q :: zs) (hq : key r < key q) (hys : ∀ y ∈ ys, key y < key r)
    (hzs : ∀ z ∈ zs, key r < key z) : Found key r xs (.inr (q, -1))

omit [DecidableEq A] in
variable {r : A}

theorem Found.extend {f : A ⊕ A × Int} (H : Found key r xs f) (us vs : List A) (hus : ∀ u ∈ us, key u < key r)
    (hvs : ∀ v ∈ vs, key r < key v) : Found key r (us ++ xs ++ vs) f := by
  cases H with
  | equal ha hk => exact .equal (by simp [ha]) hk
  | @below ys zs q hxs hq hys hzs =>
    subst hxs
    refine @Found.below _ _ _ _ _ _ (us ++ ys) (zs ++ vs) q (by simp) hq ?_ ?_
    · intro y hy
      exact (mem_append.1 hy).elim (hus y) (hys y)
    · intro z hz
      exact (mem_append.1 hz).elim (hzs z) (hvs z)
  | @above ys zs q hxs hq hys hzs =>
    subst hxs
    refine @Found.above _ _ _ _ _ _ (us ++ ys) (zs ++ vs) q (by simp) hq ?_ ?_
    · intro y hy
      exact (mem_append.1 hy).elim (hus y) (hys y)
    · intro z hz
      exact (mem_append.1 hz).elim (hzs z) (hvs z)

omit [LinearOrder K] in
theorem lookupLoop_next {t : A} {p : Option A} {i : Int} (hp : h.p t = p)
    (hc : canoncmp (cmp r t) = i) (hi : i ≠ 0) :
    lookupLoop cmp r h (fuel + 1) p t = match h.load (.n t (i = 1)) with
      | some c => lookupLoop cmp r h fuel (some t) c
      | none => some (.inr (t, i)) := by
  subst hc
  rw [lookupLoop, if_pos hp]
  exact if_neg hi

theorem lookupLoop_found (hcmp : Orders cmp key) : ∀ {t : Tree A} {tp : Place A} {c : A} {fuel : Nat},
    Hangs h tp t → Sorted key t → t.root = some c → t.height ≤ fuel →
    ∃ f, lookupLoop cmp r h fuel tp.owner c = some f ∧ Found key r t.toList f := by
  intro t
  induction t with
  | nil =>
    intro tp c fuel _ _ hc
    cases hc
  | node l a b rt ihl ihr =>
    intro tp c fuel H hs hc hfuel
    cases hc
    obtain ⟨hl, hrt, hla, har⟩ := sorted_node.1 hs
    rw [height] at hfuel
    obtain ⟨fuel, rfl⟩ : ∃ m, fuel = m + 1 := ⟨fuel - 1, by omega⟩
    rcases hcmp.canoncmp_cases r a with ⟨hi, hk⟩ | ⟨hi, hk⟩ | ⟨hi, hk⟩
    · have hgt : ∀ z ∈ rt.toList, key r < key z := fun z hz => lt_trans hk (har z hz)
      have hload : h.load (.n a (decide ((-1 : Int) = 1))) = l.root := H.left.rep.load
      rw [lookupLoop_next H.rep.2.1 hi (by decide), hload]
      cases l with
      | nil => exact ⟨_, rfl, .above rfl hk (by simp) hgt⟩
      | node x c bc y =>
        obtain ⟨f, hf, hfound⟩ := ihl H.left hl rfl (show (node x c bc y).height ≤ fuel by omega)
        refine ⟨f, hf, hfound.extend [] (a :: rt.toList) (by simp) ?_⟩
        intro z hz
        exact (mem_cons.1 hz).elim (fun h => h ▸ hk) (hgt z)
    · refine ⟨.inl a, ?_, .equal (by simp) hk.symm⟩
      rw [lookupLoop, if_pos H.rep.2.1]
      simp only [hi, if_true]
    have hlt : ∀ x ∈ l.toList, key x < key r := fun x hx => lt_trans (hla x hx) hk
    have hload : h.load (.n a (decide ((1 : Int) = 1))) = rt.root := H.right.rep.load
    rw [lookupLoop_next H.rep.2.1 hi (by decide), hload]
    cases rt with
    | nil => exact ⟨_, rfl, .below rfl hk hlt (by simp)⟩
    | node x c bc y =>
      obtain ⟨f, hf, hfound⟩ := ihr H.right hrt rfl (show (node x c bc y).height ≤ fuel by omega)
      refine ⟨f, hf, ?_⟩
      have hext := hfound.extend (l.toList ++ [a]) [] ?_ (by simp)
      · simpa [toList] using hext
      intro x hx
      rcases mem_append.1 hx with hx | hx
      · exact hlt x hx
      · rw [mem_singleton.1 hx]
        exact hk

/-- The node with the greatest key not above that of `r`. -/
def IsFloor (key : A → K) (xs : List A) (r : A) : Option A → Prop
  | none => ∀ x ∈ xs, key r < key x
  | some a => a ∈ xs ∧ key a ≤ key r ∧ ∀ x ∈ xs, key x ≤ key r → key x ≤ key a

/-- The node with the least key not below that of `r`. -/
def IsCeil (key : A → K) (xs : List A) (r : A) : Option A → Prop
  | none => ∀ x ∈ xs, key x < key r
  | some a => a ∈ xs ∧ key r ≤ key a ∧ ∀ x ∈ xs, key r ≤ key x → key a ≤ key x

def IsEqual (key : A → K) (xs : List A) (r : A) : Option A → Prop
  | none => ∀ x ∈ xs, key x ≠ key r
  | some a => a ∈ xs ∧ key a = key r

omit [DecidableEq A] in
theorem isFloor_getLast? {zs : List A} (hs : ys.Pairwise (key · < key ·)) (hys : ∀ y ∈ ys, key y < key r)
    (hzs : ∀ z ∈ zs, key r < key z) : IsFloor key (ys ++ zs) r ys.getLast? := by
  rcases eq_nil_or_concat ys with rfl | ⟨ys, q, rfl⟩
  · exact hzs
  rw [concat_eq_append] at hs hys ⊢
  rw [getLast?_concat]
  have hq := hys q (by simp)
  refine ⟨by simp, le_of_lt hq, ?_⟩
  intro x hx hle
  rw [append_assoc, mem_append, mem_append, mem_singleton] at hx
  rcases hx with hx | rfl | hx
  · exact le_of_lt ((pairwise_append.1 hs).2.2 x hx q (by simp))
  · exact le_refl _
  · exact absurd (hzs x hx) (not_lt.2 hle)

omit [DecidableEq A] in
theorem isCeil_head? {zs : List A} (hs : zs.Pairwise (key · < key ·)) (hys : ∀ y ∈ ys, key y < key r)
    (hzs : ∀ z ∈ zs, key r < key z) : IsCeil key (ys ++ zs) r zs.head? := by
  cases zs with
  | nil => rw [append_nil]; exact hys
  | cons q zs =>
    refine ⟨by simp, le_of_lt (hzs q (by simp)), ?_⟩
    intro x hx hle
    rcases mem_append.1 hx with hx | hx
    · exact absurd (hys x hx) (not_lt.2 hle)
    · rcases mem_cons.1 hx with rfl | hx
      · exact le_refl _
      · exact le_of_lt ((pairwise_cons.1 hs).1 x hx)

/-- **Search**: the asserts hold, and it finds the floor, the node or the ceiling. -/
theorem lookupavl_spec (hcmp : Orders cmp key) (H : Hangs h .root t)
    (hs : Sorted key t) (hfuel : t.height < fuel) (r : A) (neighbor : Int) :
    ∃ res, h.lookupavl cmp fuel (h.load .root) r neighbor = some res ∧ (neighbor = 0 → IsEqual key t.toList r res) ∧
      (neighbor < 0 → IsFloor key t.toList r res) ∧ (0 < neighbor → IsCeil key t.toList r res) := by
  rw [H.rep.load, lookupavl.eq_def]
  cases hroot : t.root with
  | none =>
    have hnil : t.toList = [] := by
      cases t with
      | nil => rfl
      | node l a b r => cases hroot
    rw [hnil]
    exact ⟨none, rfl, fun _ => nofun, fun _ => nofun, fun _ => nofun⟩
  | some c =>
    obtain ⟨f, hf, hfound⟩ := lookupLoop_found hcmp H hs hroot (Nat.le_of_lt hfuel)
    have hf' : lookupLoop cmp r h fuel none c = some f := hf
    simp only [hf']
    cases hfound with
    | @equal a ha hk =>
      refine ⟨some a, rfl, fun _ => ⟨ha, hk⟩, fun _ => ⟨ha, le_of_eq hk, ?_⟩, fun _ => ⟨ha, le_of_eq hk.symm, ?_⟩⟩
      · rw [hk]
        exact fun x _ hx => hx
      · rw [hk]
        exact fun x _ hx => hx
    | @below ys zs q hxs hq hys hzs =>
      have hys' : ∀ y ∈ ys ++ [q], key y < key r := by
        intro y hy
        rcases mem_append.1 hy with hy | hy
        · exact hys y hy
        · rw [mem_singleton.1 hy]
          exact hq
      have hxs' : t.toList = (ys ++ [q]) ++ zs := by rw [hxs]; simp
      rw [Sorted, hxs'] at hs
      obtain ⟨hsy, hsz, -⟩ := pairwise_append.1 hs
      have hfloor := isFloor_getLast? hsy hys' hzs
      have hceil := isCeil_head? hsz hys' hzs
      rw [getLast?_concat] at hfloor
      rw [← hxs'] at hfloor hceil
      rcases Int.lt_trichotomy neighbor 0 with hn | rfl | hn
      · refine ⟨some q, ?_, by omega, fun _ => hfloor, by omega⟩
        dsimp only
        rw [if_neg (by omega), if_pos hn, if_pos (by decide)]
      · refine ⟨none, rfl, fun _ x hx => ?_, by omega, by omega⟩
        rw [hxs'] at hx
        exact (mem_append.1 hx).elim (fun h => ne_of_lt (hys' x h)) (fun h => (ne_of_lt (hzs x h)).symm)
      refine ⟨zs.head?, ?_, by omega, by omega, fun _ => hceil⟩
      dsimp only
      rw [if_neg (by omega), if_neg (by omega), if_neg (by decide)]
      exact findsuccessor_eq H hfuel hxs
    | @above ys zs q hxs hq hys hzs =>
      have hzs' : ∀ z ∈ q :: zs, key r < key z := by
        intro z hz
        rcases mem_cons.1 hz with rfl | hz
        · exact hq
        · exact hzs z hz
      rw [Sorted, hxs] at hs
      obtain ⟨hsy, hsz, -⟩ := pairwise_append.1 hs
      have hfloor := isFloor_getLast? hsy hys hzs'
      have hceil := isCeil_head? hsz hys hzs'
      rw [← hxs] at hfloor hceil
      rcases Int.lt_trichotomy neighbor 0 with hn | rfl | hn
      · refine ⟨ys.getLast?, ?_, by omega, fun _ => hfloor, by omega⟩
        dsimp only
        rw [if_neg (by omega), if_pos hn, if_neg (by decide)]
        exact findpredecessor_eq H hfuel hxs
      · refine ⟨none, rfl, fun _ x hx => ?_, by omega, by omega⟩
        rw [hxs] at hx
        exact (mem_append.1 hx).elim (fun h => ne_of_lt (hys x h)) (fun h => (ne_of_lt (hzs' x h)).symm)
      · refine ⟨some q, ?_, by omega, by omega, fun _ => hceil⟩
        dsimp only
        rw [if_neg (by omega), if_neg (by omega), if_pos (by decide)]

end

end Heap

end Plan9.Libavl
