/-
Whole runs of the library: what holds of the tree after any insertions and
deletions, and of the walks over it.

`Holds t T` ties a tree in memory to a `Tree` that is balanced and in order. Each
operation keeps it, and what it returns and what it makes of the nodes is read off
the `Tree`.
-/
import Plan9.Libavl.SearchFacts
import Plan9.Lib.Run
import Mathlib.Data.List.Perm.Subperm

namespace Plan9.Libavl

open Function Tree

variable {A W K : Type} [DecidableEq A] [LinearOrder K] {key : A → K} {cmp : A → A → Int}

namespace Avltree

/-! ## One operation -/

structure Holds (key : A → K) (t : Avltree A W) (T : Tree A) : Prop where
  rep : t.heap.Rep .root T
  balanced : T.Balanced
  sorted : T.Sorted key

variable {t : Avltree A W} {T : Tree A} {fuel : Nat} {m : K → Option A}

omit [DecidableEq A] in
theorem Holds.hangs (H : Holds key t T) : t.heap.Hangs .root T :=
  ⟨H.rep, H.sorted.nodup, fun _ _ => nofun⟩

theorem Holds.insertavl (hcmp : Orders cmp key) (H : Holds key t T) (new : A)
    (hfuel : T.height < fuel) : ∃ t' T' old, t.insertavl cmp fuel new = some (t', old) ∧ Holds key t' T' ∧ t'.walks = t.walks ∧
      (∀ x, x ∈ T'.toList ↔ x = new ∨ x ∈ T.toList ∧ key x ≠ key new) ∧
      ∀ x, old = some x ↔ x ∈ T.toList ∧ key x = key new := by
  obtain ⟨T', d, old, hins, hb, -, -⟩ := @insert_balanced A cmp new T H.balanced
  obtain ⟨hs, hmem, hold⟩ := insert_sorted hcmp H.sorted hins
  obtain ⟨h', heq, R, -⟩ := Heap.insertavl_refines hcmp H.hangs H.sorted (by nofun) hins hfuel
  have heq' : t.heap.insertavl cmp new fuel .root none = some (h', d, old) := heq
  refine ⟨⟨h', t.walks⟩, T', old, ?_, ⟨R, hb, hs⟩, rfl, hmem, hold⟩
  rw [Avltree.insertavl, heq']

theorem Holds.deleteavl (hcmp : Orders cmp key) (H : Holds key t T) (rx : A)
    (hfuel : T.height < fuel) : ∃ t' T' old, t.deleteavl cmp fuel rx = some (t', old) ∧ Holds key t' T' ∧
      (∀ x, x ∈ T'.toList ↔ x ∈ T.toList ∧ key x ≠ key rx) ∧ (∀ x, old = some x ↔ x ∈ T.toList ∧ key x = key rx) ∧
      (old = none ∧ t'.walks = t.walks ∨ ∃ a xs ys, old = some a ∧ T.toList = xs ++ a :: ys ∧
        t'.walks = t.walks.map (fun w => (w.1, walkdel1 a xs.getLast? w.2))) := by
  obtain ⟨T', d, old, hdel, hb, -, -⟩ := @delete_balanced A cmp rx T H.balanced
  obtain ⟨hs, hmem, hold⟩ := delete_sorted hcmp H.sorted hdel
  have hpre : ∃ walks', Heap.Predel (walkdel fuel) t.heap old t.walks walks' ∧
      (old = none ∧ walks' = t.walks ∨ ∃ a xs ys, old = some a ∧ T.toList = xs ++ a :: ys ∧
        walks' = t.walks.map (fun w => (w.1, walkdel1 a xs.getLast? w.2))) := by
    cases old with
    | none => exact ⟨t.walks, rfl, Or.inl ⟨rfl, rfl⟩⟩
    | some a =>
      obtain ⟨xs, ys, hxs⟩ := List.append_of_mem ((hold a).1 rfl).1
      refine ⟨_, ?_, Or.inr ⟨a, xs, ys, rfl, hxs, rfl⟩⟩
      rw [Heap.Predel, walkdel, Heap.findpredecessor_eq H.hangs hfuel hxs]
  obtain ⟨walks', hpre, hwalks⟩ := hpre
  obtain ⟨h', heq, R, -⟩ := Heap.deleteavl_refines hcmp H.hangs H.sorted hdel hfuel hpre
  have heq' : t.heap.deleteavl cmp (walkdel fuel) rx fuel .root none t.walks = some (h', walks', d, old) := heq
  refine ⟨⟨h', walks'⟩, T', old, ?_, ⟨R, hb, hs⟩, hmem, hold, hwalks⟩
  rw [Avltree.deleteavl, heq']

theorem Holds.searchavl (hcmp : Orders cmp key) (H : Holds key t T)
    (hfuel : T.height < fuel) (r : A) (neighbor : Int) :
    ∃ res, t.searchavl cmp fuel r neighbor = some res ∧ (neighbor = 0 → Heap.IsEqual key T.toList r res) ∧
      (neighbor < 0 → Heap.IsFloor key T.toList r res) ∧ (0 < neighbor → Heap.IsCeil key T.toList r res) :=
  Heap.lookupavl_spec hcmp H.hangs H.sorted hfuel r neighbor

/-! ## Insertions and deletions -/

inductive Update (A : Type)
  | insertavl (new : A)
  | deleteavl (key : A)

/-- One after the other, with what each returned through `oldp`. -/
def updates (cmp : A → A → Int) (fuel : Nat) : List (Update A) → Avltree A W → Option (Avltree A W × List (Option A))
  | [], t => some (t, [])
  | u :: us, t =>
    match (match u with
      | .insertavl new => t.insertavl cmp fuel new
      | .deleteavl rx => t.deleteavl cmp fuel rx) with
    | none => none
    | some (t, old) =>
      match updates cmp fuel us t with
      | none => none
      | some (t, olds) => some (t, old :: olds)

/-- A finite map from keys to nodes, and what was there. -/
def refUpdate (key : A → K) (m : K → Option A) : Update A → (K → Option A) × Option A
  | .insertavl new => (Function.update m (key new) (some new), m (key new))
  | .deleteavl rx => (Function.update m (key rx) none, m (key rx))

def refUpdates (key : A → K) : List (Update A) → (K → Option A) → (K → Option A) × List (Option A)
  | [], m => (m, [])
  | u :: us, m =>
    let (m, old) := refUpdate key m u
    let (m, olds) := refUpdates key us m
    (m, old :: olds)

/-- The nodes of the tree are the map. -/
def IsMap (key : A → K) (T : Tree A) (m : K → Option A) : Prop := ∀ k a, m k = some a ↔ a ∈ T.toList ∧ key a = k

omit [DecidableEq A] [LinearOrder K] in
theorem IsMap.old (hm : IsMap key T m) {k : K} {old : Option A}
    (hold : ∀ x, old = some x ↔ x ∈ T.toList ∧ key x = k) : old = m k := by
  refine Option.ext (fun x => ?_)
  rw [hold, hm]

omit [DecidableEq A] in
theorem IsMap.insert {T' : Tree A} (hm : IsMap key T m) {new : A}
    (hmem : ∀ x, x ∈ T'.toList ↔ x = new ∨ x ∈ T.toList ∧ key x ≠ key new) :
    IsMap key T' (update m (key new) (some new)) := by
  intro k a
  have := hm k a
  by_cases hk : k = key new
  · grind
  · grind

omit [DecidableEq A] in
theorem IsMap.delete {T' : Tree A} (hm : IsMap key T m) {rx : A}
    (hmem : ∀ x, x ∈ T'.toList ↔ x ∈ T.toList ∧ key x ≠ key rx) : IsMap key T' (update m (key rx) none) := by
  intro k a
  have := hm k a
  by_cases hk : k = key rx
  · grind
  · grind

omit [DecidableEq A] [LinearOrder K] in
theorem height_le_length (T : Tree A) : T.height ≤ T.toList.length := by
  induction T with
  | nil => exact Nat.le_refl 0
  | node l a b r ihl ihr =>
    simp only [height, toList, List.length_append, List.length_cons]
    omega

theorem updates_spec (hcmp : Orders cmp key) : ∀ (us : List (Update A)) {t : Avltree A W} {T : Tree A}
    {m : K → Option A}, Holds key t T → IsMap key T m → T.toList.length + us.length < fuel →
    ∃ t' T', updates cmp fuel us t = some (t', (refUpdates key us m).2) ∧ Holds key t' T' ∧
      IsMap key T' (refUpdates key us m).1 ∧ T'.toList.length < fuel := by
  intro us
  induction us with
  | nil =>
    intro t T m H hm hfuel
    exact ⟨t, T, rfl, H, hm, by simpa using hfuel⟩
  | cons u us ih =>
    intro t T m H hm hfuel
    rw [List.length_cons] at hfuel
    have hheight := height_le_length T
    cases u with
    | insertavl new =>
      obtain ⟨t1, T1, old, heq, H1, -, hmem, hold⟩ := H.insertavl hcmp new (show T.height < fuel by omega)
      have hlen : T1.toList.length ≤ T.toList.length + 1 := by
        have hsub : T1.toList ⊆ new :: T.toList := by
          intro x hx
          grind
        exact (H1.sorted.nodup.subperm hsub).length_le
      obtain ⟨t2, T2, heq2, H2, hm2, hlen2⟩ := ih H1 (hm.insert hmem) (by omega)
      refine ⟨t2, T2, ?_, H2, hm2, hlen2⟩
      rw [updates, heq, hm.old hold]
      simp only [heq2]
      rfl
    | deleteavl rx =>
      obtain ⟨t1, T1, old, heq, H1, hmem, hold, -⟩ := H.deleteavl hcmp rx (show T.height < fuel by omega)
      have hlen : T1.toList.length ≤ T.toList.length := by
        have hsub : T1.toList ⊆ T.toList := fun x hx => ((hmem x).1 hx).1
        exact (H1.sorted.nodup.subperm hsub).length_le
      obtain ⟨t2, T2, heq2, H2, hm2, hlen2⟩ := ih H1 (hm.delete hmem) (by omega)
      refine ⟨t2, T2, ?_, H2, hm2, hlen2⟩
      rw [updates, heq, hm.old hold]
      simp only [heq2]
      rfl

omit [DecidableEq A] in
theorem holds_mkavltree [DecidableEq A] (h : Heap A) : Holds key (mkavltree h : Avltree A W) nil := by
  refine ⟨?_, trivial, List.Pairwise.nil⟩
  show (h.store .root none).load .root = none
  simp

/-- **After any insertions and deletions**: none of them fails, each returns what the map had, and what hangs at the
root is a balanced tree in order whose nodes are the map's. Any search then finds what it is to find. -/
theorem updates_correct (hcmp : Orders cmp key) (h : Heap A) (us : List (Update A)) {fuel : Nat} (hfuel : us.length < fuel) :
    ∃ (t : Avltree A W) (T : Tree A), updates cmp fuel us (mkavltree h) = some (t, (refUpdates key us fun _ => none).2) ∧
      t.heap.Rep .root T ∧ T.Balanced ∧ T.Sorted key ∧ IsMap key T (refUpdates key us fun _ => none).1 ∧
      ∀ r neighbor, ∃ res, t.searchavl cmp fuel r neighbor = some res ∧
        (neighbor = 0 → res = (refUpdates key us fun _ => none).1 (key r)) ∧
        (neighbor < 0 → Heap.IsFloor key T.toList r res) ∧ (0 < neighbor → Heap.IsCeil key T.toList r res) := by
  have hnil : IsMap key (nil : Tree A) (fun _ => none) := fun k a => by simp
  obtain ⟨t, T, heq, H, hm, hlen⟩ := updates_spec hcmp us (holds_mkavltree h) hnil
    (show (nil : Tree A).toList.length + us.length < fuel by simpa [toList] using hfuel)
  refine ⟨t, T, heq, H.rep, H.balanced, H.sorted, hm, fun r neighbor => ?_⟩
  have hheight := height_le_length T
  obtain ⟨res, hres, heqv, hfloor, hceil⟩ := H.searchavl hcmp (show T.height < fuel by omega) r neighbor
  refine ⟨res, hres, fun hn => ?_, hfloor, hceil⟩
  have hequal := heqv hn
  cases res with
  | none =>
    refine (Option.eq_none_iff_forall_ne_some.2 (fun a ha => ?_)).symm
    obtain ⟨hmem, hk⟩ := (hm _ a).1 ha
    exact hequal a hmem hk
  | some a => exact ((hm _ a).2 hequal).symm

/-- Numbers two to a key. -/
def halves (a b : Nat) : Int := (a / 2 : Nat) - (b / 2 : Nat)

theorem orders_halves : Orders halves (fun a : Nat => a / 2) := by
  constructor <;> intro a b <;> unfold halves <;> omega

theorem updates_correct_replaced : ∃ (t : Avltree Nat Unit) (T : Tree Nat),
    updates halves 5 [.insertavl 6, .insertavl 2, .insertavl 7, .deleteavl 2] (mkavltree ⟨fun _ => none, fun _ => none, fun _ => 0⟩) =
      some (t, [none, none, some 6, some 2]) ∧ t.heap.Rep .root T ∧ T.Balanced ∧
      ∃ res, t.searchavl halves 5 9 (-1) = some res ∧ Heap.IsFloor (fun a : Nat => a / 2) T.toList 9 res := by
  obtain ⟨t, T, heq, hrep, hb, -, -, hsearch⟩ := @updates_correct Nat Unit Nat _ _ (fun a : Nat => a / 2) halves orders_halves
    ⟨fun _ => none, fun _ => none, fun _ => 0⟩ [.insertavl 6, .insertavl 2, .insertavl 7, .deleteavl 2] 5 (by decide)
  obtain ⟨res, hres, -, hfloor, -⟩ := hsearch 9 (-1)
  exact ⟨t, T, heq, hrep, hb, res, hres, hfloor (by decide)⟩

end Avltree

end Plan9.Libavl
