/-
Insertion and deletion on the tree: they never run into `assert(0)`, keep it
balanced, and return by how much its height changed.

One side of a node changes its height by at most one. `rise` and `sink` say what
`balance` then makes of the node and that the code's test on the old and the new
balance is right about the height. Order is that of the list of nodes: with keys in
increasing order, insertion puts the node between the smaller and the larger,
and deletion takes the equal one out.
-/
import Plan9.Libavl.Tree
import Mathlib.Order.Defs.LinearOrder

namespace Plan9.Libavl

namespace Tree

variable {A : Type}

/-! ## Heights -/

/-- A side grew: it was a leaf's nil before, or leans. -/
def Grew (t t' : Tree A) : Prop := t'.height = t.height + 1 ∧ (t'.bal ≠ 0 ∨ t'.height = 1)

variable {l r rt t' : Tree A} {a : A} {b ob d : Int}

theorem rise {l' r' : Tree A} (hn : (node l a ob r).Balanced) (hl' : l'.Balanced) (hr' : r'.Balanced)
    (hb : b = r'.height - l'.height)
    (hside : l'.height = l.height ∧ (r'.height = r.height ∨ Grew r r') ∨ Grew l l' ∧ r'.height = r.height) :
    ∃ t, balance (node l' a b r') = some t ∧ t.Balanced ∧
      (t.height : Int) = (node l a ob r).height + if ob = 0 ∧ t.bal ≠ 0 then 1 else 0 := by
  obtain ⟨-, -, _, _, _⟩ := hn
  unfold Grew at hside
  obtain ⟨t, ht, htb, hcase⟩ := @balance_spec A a l' r' b hl' hr' hb (by omega) (by omega)
  refine ⟨t, ht, htb, ?_⟩
  rcases hcase with ⟨_, _, rfl⟩ | ⟨_, hh⟩
  · by_cases hc : ob = 0 ∧ (node l' a b r').bal ≠ 0
    · simp only [height, bal] at hc ⊢
      omega
    · simp only [height, bal] at hc ⊢
      omega
  · simp only [height] at hh ⊢
    omega

theorem sink {l' r' : Tree A} {c : A} (hn : (node l a ob r).Balanced) (hl' : l'.Balanced) (hr' : r'.Balanced)
    (hb : b = r'.height - l'.height)
    (hside : l'.height = l.height ∧ (r'.height = r.height ∨ r'.height + 1 = r.height) ∨
      l'.height + 1 = l.height ∧ r'.height = r.height) :
    ∃ t, balance (node l' c b r') = some t ∧ t.Balanced ∧
      (t.height : Int) = (node l a ob r).height + if ob ≠ 0 ∧ t.bal = 0 then -1 else 0 := by
  obtain ⟨-, -, _, _, _⟩ := hn
  obtain ⟨t, ht, htb, hcase⟩ := @balance_spec A c l' r' b hl' hr' hb (by omega) (by omega)
  refine ⟨t, ht, htb, ?_⟩
  rcases hcase with ⟨_, _, rfl⟩ | ⟨_, hh⟩
  · by_cases hc : ob ≠ 0 ∧ (node l' c b r').bal = 0
    · simp only [height, bal] at hc ⊢
      omega
    · simp only [height, bal] at hc ⊢
      omega
  simp only [height] at hh ⊢
  by_cases hbal : t.bal = 0
  · omega
  · omega

theorem canoncmp_cases (x : Int) : canoncmp x = -1 ∧ x < 0 ∨ canoncmp x = 0 ∧ x = 0 ∨ canoncmp x = 1 ∧ 0 < x := by
  unfold canoncmp
  split
  · exact Or.inl ⟨rfl, by assumption⟩
  · split
    · exact Or.inr (Or.inr ⟨rfl, by omega⟩)
    · exact Or.inr (Or.inl ⟨rfl, by omega⟩)

variable {cmp : A → A → Int}

/-- **Insertion** succeeds, and returns by how much the tree is higher. -/
theorem insert_balanced (r : A) : ∀ {t : Tree A}, t.Balanced →
    ∃ t' d old, insert cmp r t = some (t', d, old) ∧ t'.Balanced ∧ (t'.height : Int) = t.height + d ∧
      (d = 0 ∨ d = 1 ∧ (t'.bal ≠ 0 ∨ t'.height = 1)) := by
  intro t
  induction t with
  | nil =>
    intro _
    refine ⟨node nil r 0 nil, 1, none, rfl, ?_, rfl, Or.inr ⟨rfl, Or.inr rfl⟩⟩
    exact ⟨trivial, trivial, rfl, by decide, by decide⟩
  | node l a ob rt ihl ihr =>
    intro h
    obtain ⟨hl, hr, hob, hlo, hhi⟩ := id h
    have hback : ∀ (t : Tree A) (d : Int), d = (if ob = 0 ∧ t.bal ≠ 0 then 1 else 0) →
        d = 0 ∨ d = 1 ∧ (t.bal ≠ 0 ∨ t.height = 1) := by
      rintro t d rfl
      split
      · rename_i hc
        exact Or.inr ⟨rfl, Or.inl hc.2⟩
      · exact Or.inl rfl
    unfold insert
    rcases canoncmp_cases (cmp r a) with ⟨hc, -⟩ | ⟨hc, -⟩ | ⟨hc, -⟩
    · obtain ⟨l', d, old, hins, hl', hh, hd⟩ := ihl hl
      obtain ⟨t, ht, htb, hth⟩ := @rise A l rt a (ob + -1 * d) ob l' rt h hl' hr (by omega)
        (by
        unfold Grew
        omega)
      simp only [hc, hins, ht]
      exact ⟨t, _, old, rfl, htb, hth, hback t _ rfl⟩
    · simp only [hc, if_true]
      exact ⟨node l r ob rt, 0, some a, rfl, ⟨hl, hr, hob, hlo, hhi⟩, by simp [height], Or.inl rfl⟩
    obtain ⟨r', d, old, hins, hr', hh, hd⟩ := ihr hr
    obtain ⟨t, ht, htb, hth⟩ := @rise A l rt a (ob + 1 * d) ob l r' h hl hr' (by omega)
      (by
      unfold Grew
      omega)
    simp only [hc, hins, ht]
    exact ⟨t, _, old, rfl, htb, hth, hback t _ rfl⟩

theorem sank : (if ob ≠ 0 ∧ b = 0 then -1 else (0 : Int)) = -1 ∨ (if ob ≠ 0 ∧ b = 0 then -1 else (0 : Int)) = 0 := by
  split
  · exact Or.inl rfl
  · exact Or.inr rfl

theorem successor_balanced : ∀ {t : Tree A}, t.Balanced → t ≠ nil →
    ∃ t' d s, successor t = some (t', d, s) ∧ t'.Balanced ∧ (t'.height : Int) = t.height + d ∧ (d = -1 ∨ d = 0) := by
  intro t
  induction t with
  | nil => intro _ h; exact absurd rfl h
  | node l a ob rt ihl _ =>
    intro h _
    obtain ⟨hl, hr, hob, _, _⟩ := id h
    cases l with
    | nil => exact ⟨rt, -1, a, rfl, hr, by simp only [height] at hob ⊢; omega, Or.inl rfl⟩
    | node x c bc y =>
      obtain ⟨l', d, s, hsucc, hl', _, _⟩ := ihl hl (by simp)
      obtain ⟨t, ht, htb, hth⟩ := @sink A (node x c bc y) rt a (ob - d) ob l' rt a h hl' hr (by omega) (by omega)
      rw [successor]
      simp only [hsucc, ht]
      exact ⟨t, _, s, rfl, htb, hth, sank⟩

/-- **Deletion** succeeds, and returns by how much the tree is higher. -/
theorem delete_balanced (rx : A) : ∀ {t : Tree A}, t.Balanced →
    ∃ t' d old, delete cmp rx t = some (t', d, old) ∧ t'.Balanced ∧ (t'.height : Int) = t.height + d ∧
      (d = -1 ∨ d = 0) := by
  intro t
  induction t with
  | nil => intro _; exact ⟨nil, 0, none, rfl, trivial, rfl, Or.inr rfl⟩
  | node l a ob rt ihl ihr =>
    intro h
    obtain ⟨hl, hr, hob, -, -⟩ := id h
    rcases canoncmp_cases (cmp rx a) with ⟨hc, -⟩ | ⟨hc, -⟩ | ⟨hc, -⟩
    · obtain ⟨l', d, old, hdel, hl', hh, hd⟩ := ihl hl
      obtain ⟨t, ht, htb, hth⟩ := @sink A l rt a (ob + -1 * d) ob l' rt a h hl' hr (by omega) (by omega)
      simp only [delete, hc, hdel, ht]
      exact ⟨t, _, old, rfl, htb, hth, sank⟩
    · cases l with
      | nil =>
        simp only [delete, hc, if_true]
        exact ⟨rt, -1, some a, rfl, hr, by simp only [height] at hob ⊢; omega, Or.inl rfl⟩
      | node x c bc y =>
        cases rt with
        | nil =>
          simp only [delete, hc, if_true]
          exact ⟨node x c bc y, -1, some a, rfl, hl, by simp only [height] at hob ⊢; omega, Or.inl rfl⟩
        | node y' c' bc' z =>
          obtain ⟨r', d, s, hsucc, hr', hh, hd⟩ := successor_balanced hr (by simp)
          obtain ⟨t, ht, htb, hth⟩ :=
            @sink A (node x c bc y) (node y' c' bc' z) a (ob + d) ob (node x c bc y) r' s h hl hr' (by omega) (by omega)
          simp only [delete, hc, if_true, hsucc, ht]
          exact ⟨t, _, some a, rfl, htb, hth, sank⟩
    obtain ⟨r', d, old, hdel, hr', hh, hd⟩ := ihr hr
    obtain ⟨t, ht, htb, hth⟩ := @sink A l rt a (ob + 1 * d) ob l r' a h hl hr' (by omega) (by omega)
    simp only [delete, hc, hdel, ht]
    exact ⟨t, _, old, rfl, htb, hth, sank⟩

/-! ## The ways through -/

/-- The end of each of the three: `balance`, and what is returned. -/
theorem tail_cases {X : Type} {o : Option (Tree A)} {f : Tree A → Int} {x old : X}
    (h : (match o with | none => none | some t => some (t, f t, x)) = some (t', d, old)) :
    o = some t' ∧ d = f t' ∧ x = old := by
  cases o with
  | none => cases h
  | some t => cases h; exact ⟨rfl, rfl, rfl⟩

theorem insert_cases {r : A} {old : Option A}
    (h : insert cmp r (node l a ob rt) = some (t', d, old)) :
    (canoncmp (cmp r a) = 0 ∧ t' = node l r ob rt ∧ d = 0 ∧ old = some a) ∨
    (canoncmp (cmp r a) = 1 ∧ ∃ rt' d', insert cmp r rt = some (rt', d', old) ∧
      balance (node l a (ob + 1 * d') rt') = some t' ∧ d = if ob = 0 ∧ t'.bal ≠ 0 then 1 else 0) ∨
    (canoncmp (cmp r a) = -1 ∧ ∃ l' d', insert cmp r l = some (l', d', old) ∧
      balance (node l' a (ob + -1 * d') rt) = some t' ∧ d = if ob = 0 ∧ t'.bal ≠ 0 then 1 else 0) := by
  rw [insert] at h
  rcases canoncmp_cases (cmp r a) with ⟨hc, -⟩ | ⟨hc, -⟩ | ⟨hc, -⟩ <;> rw [hc] at h
  · refine Or.inr (Or.inr ⟨hc, ?_⟩)
    cases hins : insert cmp r l with
    | none => rw [hins] at h; cases h
    | some res =>
      obtain ⟨l', d', old'⟩ := res
      rw [hins] at h
      obtain ⟨hbal, hd, rfl⟩ := @tail_cases A _ _ _ _ (fun t => if ob = 0 ∧ t.bal ≠ 0 then 1 else 0) _ _ h
      exact ⟨l', d', rfl, hbal, hd⟩
  · cases h
    exact Or.inl ⟨hc, rfl, rfl, rfl⟩
  refine Or.inr (Or.inl ⟨hc, ?_⟩)
  cases hins : insert cmp r rt with
  | none => rw [hins] at h; cases h
  | some res =>
    obtain ⟨r', d', old'⟩ := res
    rw [hins] at h
    obtain ⟨hbal, hd, rfl⟩ := @tail_cases A _ _ _ _ (fun t => if ob = 0 ∧ t.bal ≠ 0 then 1 else 0) _ _ h
    exact ⟨r', d', rfl, hbal, hd⟩

theorem successor_cases {s : A} (h : successor (node l a ob rt) = some (t', d, s)) :
    (l = nil ∧ t' = rt ∧ d = -1 ∧ s = a) ∨
    (l ≠ nil ∧ ∃ l' d', successor l = some (l', d', s) ∧ balance (node l' a (ob - d') rt) = some t' ∧
      d = if ob ≠ 0 ∧ t'.bal = 0 then -1 else 0) := by
  cases l with
  | nil => cases h; exact Or.inl ⟨rfl, rfl, rfl, rfl⟩
  | node x c bc y =>
    refine Or.inr ⟨nofun, ?_⟩
    rw [successor] at h
    cases hsucc : successor (node x c bc y) with
    | none => simp only [hsucc, reduceCtorEq] at h
    | some res =>
      obtain ⟨l', d', _⟩ := res
      simp only [hsucc] at h
      obtain ⟨hbal, hd, rfl⟩ := @tail_cases A _ _ _ _ (fun t => if ob ≠ 0 ∧ t.bal = 0 then -1 else 0) _ _ h
      exact ⟨l', d', rfl, hbal, hd⟩

theorem delete_cases {rx : A} {old : Option A}
    (h : delete cmp rx (node l a ob rt) = some (t', d, old)) :
    (canoncmp (cmp rx a) = 0 ∧ old = some a ∧
      ((l = nil ∧ t' = rt ∧ d = -1) ∨ (l ≠ nil ∧ rt = nil ∧ t' = l ∧ d = -1) ∨
       (l ≠ nil ∧ rt ≠ nil ∧ ∃ rt' d' s, successor rt = some (rt', d', s) ∧ balance (node l s (ob + d') rt') = some t' ∧
         d = if ob ≠ 0 ∧ t'.bal = 0 then -1 else 0))) ∨
    (canoncmp (cmp rx a) = 1 ∧ ∃ rt' d', delete cmp rx rt = some (rt', d', old) ∧
      balance (node l a (ob + 1 * d') rt') = some t' ∧ d = if ob ≠ 0 ∧ t'.bal = 0 then -1 else 0) ∨
    (canoncmp (cmp rx a) = -1 ∧ ∃ l' d', delete cmp rx l = some (l', d', old) ∧
      balance (node l' a (ob + -1 * d') rt) = some t' ∧ d = if ob ≠ 0 ∧ t'.bal = 0 then -1 else 0) := by
  unfold delete at h
  rcases canoncmp_cases (cmp rx a) with ⟨hc, -⟩ | ⟨hc, -⟩ | ⟨hc, -⟩ <;> simp only [hc] at h
  · refine Or.inr (Or.inr ⟨hc, ?_⟩)
    cases hdel : delete cmp rx l with
    | none => rw [hdel] at h; cases h
    | some res =>
      obtain ⟨l', d', old'⟩ := res
      rw [hdel] at h
      obtain ⟨hbal, hd, rfl⟩ := @tail_cases A _ _ _ _ (fun t => if ob ≠ 0 ∧ t.bal = 0 then -1 else 0) _ _ h
      exact ⟨l', d', rfl, hbal, hd⟩
  · cases l with
    | nil => cases h; exact Or.inl ⟨hc, rfl, Or.inl ⟨rfl, rfl, rfl⟩⟩
    | node x c bc y =>
      cases rt with
      | nil => cases h; exact Or.inl ⟨hc, rfl, Or.inr (Or.inl ⟨nofun, rfl, rfl, rfl⟩)⟩
      | node y' c' bc' z =>
        simp only [if_true] at h
        cases hsucc : successor (node y' c' bc' z) with
        | none => simp only [hsucc, reduceCtorEq] at h
        | some res =>
          obtain ⟨rt', d', s⟩ := res
          simp only [hsucc] at h
          obtain ⟨hbal, hd, rfl⟩ := @tail_cases A _ _ _ _ (fun t => if ob ≠ 0 ∧ t.bal = 0 then -1 else 0) _ _ h
          exact Or.inl ⟨hc, rfl, Or.inr (Or.inr ⟨nofun, nofun, rt', d', s, rfl, hbal, hd⟩)⟩
  refine Or.inr (Or.inl ⟨hc, ?_⟩)
  cases hdel : delete cmp rx rt with
  | none => rw [hdel] at h; cases h
  | some res =>
    obtain ⟨r', d', old'⟩ := res
    rw [hdel] at h
    obtain ⟨hbal, hd, rfl⟩ := @tail_cases A _ _ _ _ (fun t => if ob ≠ 0 ∧ t.bal = 0 then -1 else 0) _ _ h
    exact ⟨r', d', rfl, hbal, hd⟩

/-! ## Order -/

section

variable {K : Type} [LinearOrder K] {key : A → K}

/-- The comparison is that of the keys, a total order. -/
structure Orders (cmp : A → A → Int) (key : A → K) : Prop where
  lt : ∀ a b, cmp a b < 0 ↔ key a < key b
  gt : ∀ a b, 0 < cmp a b ↔ key b < key a

theorem Orders.canoncmp_cases (hc : Orders cmp key) (a b : A) :
    canoncmp (cmp a b) = -1 ∧ key a < key b ∨ canoncmp (cmp a b) = 0 ∧ key a = key b ∨
      canoncmp (cmp a b) = 1 ∧ key b < key a := by
  rcases Tree.canoncmp_cases (cmp a b) with ⟨h, hlt⟩ | ⟨h, _⟩ | ⟨h, hgt⟩
  · exact Or.inl ⟨h, (hc.lt a b).1 hlt⟩
  · refine Or.inr (Or.inl ⟨h, le_antisymm ?_ ?_⟩)
    · exact not_lt.1 (fun hk => by have := (hc.gt a b).2 hk; omega)
    · exact not_lt.1 (fun hk => by have := (hc.lt a b).2 hk; omega)
  · exact Or.inr (Or.inr ⟨h, (hc.gt a b).1 hgt⟩)

theorem Orders.eq_of_zero (hc : Orders cmp key) {b : A} (h : canoncmp (cmp a b) = 0) : key a = key b := by
  rcases hc.canoncmp_cases a b with ⟨h', -⟩ | ⟨-, hk⟩ | ⟨h', -⟩
  · omega
  · exact hk
  · omega

theorem Orders.eq_zero (hc : Orders cmp key) {b : A} (h : key a = key b) : cmp a b = 0 := by
  have h1 := (hc.lt a b).not.2 (by rw [h]; exact lt_irrefl _)
  have h2 := (hc.gt a b).not.2 (by rw [h]; exact lt_irrefl _)
  omega

theorem Orders.lt_of_one (hc : Orders cmp key) {b : A} (h : canoncmp (cmp a b) = 1) : key b < key a := by
  rcases hc.canoncmp_cases a b with ⟨h', -⟩ | ⟨h', -⟩ | ⟨-, hk⟩
  · omega
  · omega
  · exact hk

theorem Orders.lt_of_neg_one (hc : Orders cmp key) {b : A} (h : canoncmp (cmp a b) = -1) : key a < key b := by
  rcases hc.canoncmp_cases a b with ⟨-, hk⟩ | ⟨h', -⟩ | ⟨h', -⟩
  · exact hk
  · omega
  · omega

def Sorted (key : A → K) (t : Tree A) : Prop := t.toList.Pairwise (key · < key ·)

@[simp] theorem mem_nil {x : A} : x ∈ (nil : Tree A).toList ↔ False := by simp [toList]

@[simp] theorem mem_node {x : A} :
    x ∈ (node l a b r).toList ↔ x ∈ l.toList ∨ x = a ∨ x ∈ r.toList := by
  simp [toList]

theorem sorted_node : Sorted key (node l a b r) ↔
    Sorted key l ∧ Sorted key r ∧ (∀ x ∈ l.toList, key x < key a) ∧ ∀ x ∈ r.toList, key a < key x := by
  simp only [Sorted, toList, List.pairwise_append, List.pairwise_cons, List.mem_cons]
  constructor
  · rintro ⟨hl, ⟨har, hr⟩, hlr⟩
    exact ⟨hl, hr, fun x hx => hlr x hx a (Or.inl rfl), har⟩
  rintro ⟨hl, hr, hla, har⟩
  refine ⟨hl, ⟨har, hr⟩, ?_⟩
  rintro x hx y (rfl | hy)
  · exact hla x hx
  · exact lt_trans (hla x hx) (har y hy)

theorem Sorted.congr {t : Tree A} (h : Sorted key t) (ht : t'.toList = t.toList) : Sorted key t' := by
  rw [Sorted, ht]
  exact h

theorem Sorted.nodup {t : Tree A} (h : Sorted key t) : t.toList.Nodup :=
  h.imp (fun hlt heq => absurd hlt (by rw [heq]; exact lt_irrefl _))

/-- **Insertion** puts the node in, for the node with its key if there is one, which is returned. -/
theorem insert_sorted (hcmp : Orders cmp key) {r : A} : ∀ {t t' : Tree A} {d : Int} {old : Option A}, Sorted key t →
    insert cmp r t = some (t', d, old) → Sorted key t' ∧ (∀ x, x ∈ t'.toList ↔ x = r ∨ x ∈ t.toList ∧ key x ≠ key r) ∧
      ∀ x, old = some x ↔ x ∈ t.toList ∧ key x = key r := by
  intro t
  induction t with
  | nil =>
    intro t' d old _ h
    cases h
    exact ⟨by simp [Sorted, toList], by simp, by simp⟩
  | node l a ob rt ihl ihr =>
    intro t' d old hs h
    obtain ⟨hl, hr, hla, har⟩ := sorted_node.1 hs
    rcases insert_cases h with ⟨hc, rfl, -, rfl⟩ | ⟨hc, _, d', hins, hbal, -⟩ | ⟨hc, _, d', hins, hbal, -⟩
    · have hk := hcmp.eq_of_zero hc
      refine ⟨sorted_node.2 ⟨hl, hr, by rwa [hk], by rwa [hk]⟩, fun x => ?_, fun x => ?_⟩ <;> grind [mem_node]
    · have hk := hcmp.lt_of_one hc
      obtain ⟨hrt', hmem, hold⟩ := ihr hr hins
      have hlist := toList_balance hbal
      refine ⟨Sorted.congr (sorted_node.2 ⟨hl, hrt', hla, ?_⟩) hlist, fun x => ?_, fun x => ?_⟩
      · grind
      · grind [mem_node]
      · grind [mem_node]
    have hk := hcmp.lt_of_neg_one hc
    obtain ⟨hl', hmem, hold⟩ := ihl hl hins
    have hlist := toList_balance hbal
    refine ⟨Sorted.congr (sorted_node.2 ⟨hl', hr, ?_, har⟩) hlist, fun x => ?_, fun x => ?_⟩
    · grind
    · grind [mem_node]
    · grind [mem_node]

theorem toList_successor : ∀ {t t' : Tree A} {d : Int} {s : A}, successor t = some (t', d, s) → t.toList = s :: t'.toList := by
  intro t
  induction t with
  | nil => intro t' d s h; cases h
  | node l a ob rt ihl _ =>
    intro t' d s h
    rcases successor_cases h with ⟨rfl, rfl, -, rfl⟩ | ⟨-, _, _, hsucc, hbal, -⟩
    · rfl
    · rw [toList_balance hbal, toList, toList, ihl hsucc, List.cons_append]

/-- **Deletion** takes the node with the key out, and returns it. -/
theorem delete_sorted (hcmp : Orders cmp key) {rx : A} : ∀ {t t' : Tree A} {d : Int} {old : Option A}, Sorted key t →
    delete cmp rx t = some (t', d, old) → Sorted key t' ∧ (∀ x, x ∈ t'.toList ↔ x ∈ t.toList ∧ key x ≠ key rx) ∧
      ∀ x, old = some x ↔ x ∈ t.toList ∧ key x = key rx := by
  intro t
  induction t with
  | nil =>
    intro t' d old _ h
    cases h
    exact ⟨by simp [Sorted, toList], by simp, by simp⟩
  | node l a ob rt ihl ihr =>
    intro t' d old hs h
    obtain ⟨hl, hr, hla, har⟩ := sorted_node.1 hs
    rcases delete_cases h with ⟨hc, rfl, hkids⟩ | ⟨hc, rt', d', hdel, hbal, -⟩ | ⟨hc, _, d', hdel, hbal, -⟩
    · have hk := hcmp.eq_of_zero hc
      have hlist : t'.toList = l.toList ++ rt.toList := by
        rcases hkids with ⟨rfl, rfl, -⟩ | ⟨-, rfl, rfl, -⟩ | ⟨-, -, rt', d', s, hsucc, hbal, -⟩
        · rfl
        · simp [toList]
        · rw [toList_balance hbal, toList, toList_successor hsucc]
      refine ⟨?_, fun x => ?_, fun x => ?_⟩
      · rw [Sorted, hlist]
        exact hs.sublist ((List.sublist_cons_self a rt.toList).append_left l.toList)
      · grind [mem_node]
      · grind [mem_node]
    · have hk := hcmp.lt_of_one hc
      obtain ⟨hrt', hmem, hold⟩ := ihr hr hdel
      have hlist := toList_balance hbal
      refine ⟨Sorted.congr (sorted_node.2 ⟨hl, hrt', hla, ?_⟩) hlist, fun x => ?_, fun x => ?_⟩
      · grind
      · grind [mem_node]
      · grind [mem_node]
    have hk := hcmp.lt_of_neg_one hc
    obtain ⟨hl', hmem, hold⟩ := ihl hl hdel
    have hlist := toList_balance hbal
    refine ⟨Sorted.congr (sorted_node.2 ⟨hl', hr, ?_, har⟩) hlist, fun x => ?_, fun x => ?_⟩
    · grind
    · grind [mem_node]
    · grind [mem_node]

end

end Tree

end Plan9.Libavl
