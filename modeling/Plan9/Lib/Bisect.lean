/-
Bisection: the last place at which a predicate holds that holds up to some
place and not after it. `last p l r` looks in `[l, r]`, and gives `l - 1` when
it holds nowhere there.

`search cmp l r` looks in `[l, r]` for a place where the comparison is `eq`, the
places before such ones being `gt` and those after them `lt`: what is looked for is the greater.
Where there is none it gives the first place that is not `gt`.
-/
import Mathlib.Tactic.Ring

namespace Bisect

def last (p : Int → Bool) (l r : Int) : Int :=
  if l ≤ r then
    let m := (r + l) / 2
    if p m then last p (m + 1) r else last p l (m - 1)
  else l - 1
termination_by (r + 1 - l).toNat

variable {p : Int → Bool} {l r : Int}

/-- The place stays in the window, or is the one before it. -/
theorem last_range (h : l ≤ r + 1) : l - 1 ≤ last p l r ∧ last p l r ≤ r := by
  fun_induction last p l r with
  | case1 l r hle m hm ih =>
    omega
  | case2 l r hle m hm ih =>
    omega
  | case3 l r hle => omega

/-- What holds before the window and in a part of it that is closed downwards ends at the place found. -/
theorem last_spec (hdown : ∀ i j, l ≤ i → i ≤ j → j ≤ r → p j = true → p i = true) :
    (∀ i, l ≤ i → i ≤ last p l r → p i = true) ∧ ∀ i, last p l r < i → i ≤ r → p i = false := by
  fun_induction last p l r with
  | case1 l r hle m hm ih =>
    obtain ⟨hlow, hhigh⟩ := ih fun i j hi hij hj => hdown i j (by omega) hij hj
    refine ⟨fun i hi hle' => ?_, hhigh⟩
    by_cases him : i ≤ m
    · exact hdown i m hi him (by omega) hm
    · exact hlow i (by omega) hle'
  | case2 l r hle m hm ih =>
    obtain ⟨hlow, hhigh⟩ := ih fun i j hi hij hj => hdown i j hi hij (by omega)
    refine ⟨hlow, fun i hi hir => ?_⟩
    by_cases him : i < m
    · exact hhigh i hi (by omega)
    · cases hp : p i with
      | false => rfl
      | true => exact absurd (hdown m i (by omega) (by omega) hir hp) hm
  | case3 l r hle =>
    refine ⟨fun i hi hle' => ?_, fun i hi hir => ?_⟩
    · exact absurd hle' (by omega)
    · exact absurd hir (by omega)

/-! ## Three ways -/

/-- The place, and whether it was found there. -/
def search (cmp : Int → Ordering) (l r : Int) : Int × Bool :=
  if l ≤ r then
    let m := (r + l) / 2
    match cmp m with
    | .gt => search cmp (m + 1) r
    | .lt => search cmp l (m - 1)
    | .eq => (m, true)
  else (l, false)
termination_by (r + 1 - l).toNat

/-- What a search has found. -/
def Found (cmp : Int → Ordering) (l r : Int) : Int × Bool → Prop
  | (m, true) => l ≤ m ∧ m ≤ r ∧ cmp m = .eq
  | (m, false) => l ≤ m ∧ m ≤ r + 1 ∧ (∀ i, l ≤ i → i < m → cmp i = .gt) ∧ ∀ i, m ≤ i → i ≤ r → cmp i = .lt

theorem search_range (cmp : Int → Ordering) {l r : Int} (hlr : l ≤ r + 1) :
    l ≤ (search cmp l r).1 ∧ (search cmp l r).1 ≤ r + 1 ∧ ((search cmp l r).2 = true → (search cmp l r).1 ≤ r) := by
  fun_induction search cmp l r with
  | case1 l r hle m hm ih =>
    have := ih (by omega)
    exact ⟨by omega, this.2⟩
  | case2 l r hle m hm ih =>
    obtain ⟨hlow, hhigh, hfound⟩ := ih (by omega)
    exact ⟨hlow, by omega, fun h => by have := hfound h; omega⟩
  | case3 l r hle m hm => exact ⟨by omega, by omega, fun _ => by omega⟩
  | case4 l r hle => exact ⟨Int.le_refl l, hlr, fun h => nomatch h⟩

theorem search_found {cmp : Int → Ordering} {l r : Int} (hlr : l ≤ r + 1)
    (hgt : ∀ i j, l ≤ i → i ≤ j → j ≤ r → cmp j = .gt → cmp i = .gt)
    (hlt : ∀ i j, l ≤ i → i ≤ j → j ≤ r → cmp i = .lt → cmp j = .lt) : Found cmp l r (search cmp l r) := by
  fun_induction search cmp l r with
  | case1 l r hle m hm ih =>
    have hfound := ih (by omega) (fun i j hi hij hj => hgt i j (by omega) hij hj) fun i j hi hij hj => hlt i j (by omega) hij hj
    rcases hs : search cmp (m + 1) r with ⟨p, _ | _⟩
    · rw [hs] at hfound
      obtain ⟨hp, hpr, hbefore, hafter⟩ := hfound
      refine ⟨by omega, hpr, fun i hi hip => ?_, hafter⟩
      by_cases him : i ≤ m
      · exact hgt i m hi him (by omega) hm
      · exact hbefore i (by omega) hip
    · rw [hs] at hfound
      obtain ⟨hp, hpr, heq⟩ := hfound
      exact ⟨by omega, hpr, heq⟩
  | case2 l r hle m hm ih =>
    have hfound := ih (by omega) (fun i j hi hij hj => hgt i j hi hij (by omega)) fun i j hi hij hj => hlt i j hi hij (by omega)
    rcases hs : search cmp l (m - 1) with ⟨p, _ | _⟩
    · rw [hs] at hfound
      obtain ⟨hp, hpr, hbefore, hafter⟩ := hfound
      refine ⟨hp, by omega, hbefore, fun i hi hir => ?_⟩
      by_cases him : i < m
      · exact hafter i hi (by omega)
      · exact hlt m i (by omega) (by omega) hir hm
    · rw [hs] at hfound
      obtain ⟨hp, hpr, heq⟩ := hfound
      exact ⟨hp, by omega, heq⟩
  | case3 l r hle m hm => exact ⟨by omega, by omega, hm⟩
  | case4 l r hle => exact ⟨Int.le_refl l, hlr, fun i hi hil => absurd hil (by omega), fun i hi hir => absurd hir (by omega)⟩

end Bisect
