/-
Half-open ranges that follow one another.

A list of items, each with a range `[lo, hi)`, is chained from `a` to `b` when
the first range starts at `a`, each later one starts where the one before it
stops, and the last stops at `b`. If no range is reversed they tile `[a, b)`.
-/
import Mathlib.Data.List.Nodup
import Mathlib.Data.List.Perm.Subperm
import Mathlib.Tactic.Ring

namespace Ranges

open List

variable {α β : Type*}

def Chained (lo hi : β → α) : α → List β → α → Prop
  | a, [], b => a = b
  | a, x :: xs, b => lo x = a ∧ Chained lo hi (hi x) xs b

namespace Chained

variable {lo hi : β → α} {a b c : α} {xs : List β}

theorem stop_eq_start (h : Chained lo hi a xs b) {j : Nat} {x y : β} (hx : xs[j]? = some x)
    (hy : xs[j + 1]? = some y) : hi x = lo y := by
  induction xs generalizing a j with
  | nil => cases hx
  | cons z zs ih =>
    cases j with
    | zero =>
      cases hx
      cases zs with
      | nil => cases hy
      | cons w ws =>
        cases hy
        exact h.2.1.symm
    | succ j => exact ih h.2 hx hy

theorem stop_last (h : Chained lo hi a xs b) {j : Nat} {x : β} (hx : xs[j]? = some x)
    (hj : xs.length = j + 1) : hi x = b := by
  induction xs generalizing a j with
  | nil => cases hx
  | cons z zs ih =>
    cases j with
    | zero =>
      cases hx
      rw [length_eq_zero_iff.mp (Nat.succ.inj hj)] at h
      exact h.2
    | succ j => exact ih h.2 hx (Nat.succ.inj hj)

variable [LinearOrder α]

theorem le (h : Chained lo hi a xs b) (hw : ∀ x ∈ xs, lo x ≤ hi x) : a ≤ b := by
  induction xs generalizing a with
  | nil => exact le_of_eq h
  | cons x xs ih =>
    rw [forall_mem_cons] at hw
    rw [← h.1]
    exact le_trans hw.1 (ih h.2 hw.2)

theorem bounds (h : Chained lo hi a xs b) (hw : ∀ x ∈ xs, lo x ≤ hi x) {x : β} (hx : x ∈ xs) :
    a ≤ lo x ∧ hi x ≤ b := by
  induction xs generalizing a with
  | nil => cases hx
  | cons y ys ih =>
    rw [forall_mem_cons] at hw
    cases hx with
    | head => exact ⟨le_of_eq h.1.symm, h.2.le hw.2⟩
    | tail _ hx =>
      obtain ⟨h1, h2⟩ := ih h.2 hw.2 hx
      rw [← h.1]
      exact ⟨le_trans hw.1 h1, h2⟩

theorem ordered (h : Chained lo hi a xs b) (hw : ∀ x ∈ xs, lo x ≤ hi x) {i j : Nat} {x y : β}
    (hx : xs[i]? = some x) (hy : xs[j]? = some y) (hij : i < j) : hi x ≤ lo y := by
  induction xs generalizing a i j with
  | nil => cases hx
  | cons z zs ih =>
    rw [forall_mem_cons] at hw
    cases j with
    | zero => omega
    | succ j =>
      cases i with
      | zero =>
        cases hx
        exact (h.2.bounds hw.2 (mem_of_getElem? hy)).1
      | succ i => exact ih h.2 hw.2 hx hy (by omega)

theorem cover (h : Chained lo hi a xs b) (ha : a ≤ c) (hb : c < b) :
    ∃ (j : Nat) (x : β), xs[j]? = some x ∧ lo x ≤ c ∧ c < hi x := by
  induction xs generalizing a with
  | nil =>
    rw [show a = b from h] at ha
    exact absurd hb (not_lt_of_ge ha)
  | cons x xs ih =>
    by_cases hc : c < hi x
    · exact ⟨0, x, rfl, by rw [h.1]; exact ha, hc⟩
    · obtain ⟨j, y, hy, hlo⟩ := ih h.2 (not_lt.mp hc)
      exact ⟨j + 1, y, hy, hlo⟩

theorem unique (h : Chained lo hi a xs b) (hw : ∀ x ∈ xs, lo x ≤ hi x) {i j : Nat} {x y : β}
    (hx : xs[i]? = some x) (hxc : lo x ≤ c ∧ c < hi x) (hy : xs[j]? = some y)
    (hyc : lo y ≤ c ∧ c < hi y) : i = j := by
  rcases Nat.lt_trichotomy i j with hij | hij | hij
  · have := h.ordered hw hx hy hij
    exact absurd hxc.2 (not_lt_of_ge (le_trans this hyc.1))
  · exact hij
  · have := h.ordered hw hy hx hij
    exact absurd hyc.2 (not_lt_of_ge (le_trans this hxc.1))

end Chained

/-- Ranges that share nothing have no more room together than what they are in. -/
theorem sum_le_of_apart {start size : β → Nat} {xs : List β} {n : Nat} (hin : ∀ x ∈ xs, start x + size x ≤ n)
    (hapart : xs.Pairwise fun x y => start x + size x ≤ start y ∨ start y + size y ≤ start x) :
    (xs.map size).sum ≤ n := by
  have hnodup : (xs.flatMap fun x => range' (start x) (size x)).Nodup := by
    rw [nodup_flatMap]
    refine ⟨fun x _ => nodup_range', hapart.imp fun {x y} h m hx hy => ?_⟩
    rw [mem_range'_1] at hx hy
    omega
  have hsub : (xs.flatMap fun x => range' (start x) (size x)) ⊆ range n := by
    intro m hm
    obtain ⟨x, hx, hmx⟩ := mem_flatMap.1 hm
    have := hin x hx
    rw [mem_range'_1] at hmx
    exact mem_range.2 (by omega)
  have hle := (hnodup.subperm hsub).length_le
  rw [length_range, length_flatMap] at hle
  have hlen : (xs.map fun x => (range' (start x) (size x)).length) = xs.map size :=
    map_congr_left fun x _ => length_range'
  exact hlen ▸ hle

end Ranges
