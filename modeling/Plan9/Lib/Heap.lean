/-
A binary heap in an array, least key first, with a hole in it.

A sift moves a hole through the array until an element fits: `UpHole` is what is so of
the order while the hole goes up, `DownHole` while it goes down, and each is kept by a
step (`up`, `down`) and is the whole order once the element is put (`fill`). The order
is about the array and the keys alone: what else a program writes when it moves an
element it says itself.
-/
import Mathlib.Tactic.Ring

namespace Heap

open Function

variable {β α : Type} [LinearOrder α] {k : β → α} {h : Nat → β} {n hole : Nat} {x : β}

def parent (i : Nat) : Nat := (i - 1) / 2

theorem parent_lt {i : Nat} (h : 0 < i) : parent i < i := by unfold parent; omega

theorem parent_eq {i p : Nat} (h : 0 < i) (hp : parent i = p) : i = 2 * p + 1 ∨ i = 2 * p + 2 := by
  unfold parent at hp; omega

theorem parent_left (p : Nat) : parent (2 * p + 1) = p := by unfold parent; omega

theorem parent_right (p : Nat) : parent (2 * p + 2) = p := by unfold parent; omega

/-- No key among the first `n` is below its parent's. -/
def Ordered (k : β → α) (h : Nat → β) (n : Nat) : Prop := ∀ i, 0 < i → i < n → k (h (parent i)) ≤ k (h i)

theorem Ordered.first (ho : Ordered k h n) {i : Nat} (hi : i < n) : k (h 0) ≤ k (h i) := by
  induction i using Nat.strongRecOn with
  | _ i ih =>
    rcases Nat.eq_zero_or_pos i with rfl | hpos
    · exact le_refl _
    · have hlt := parent_lt hpos
      exact le_trans (ih _ hlt (by omega)) (ho i hpos hi)

theorem Ordered.anti (ho : Ordered k h n) {m : Nat} (hm : m ≤ n) : Ordered k h m :=
  fun i hpos hi => ho i hpos (by omega)

theorem Ordered.congr {k' : β → α} (ho : Ordered k h n)
    (hk : ∀ i j, i < n → j < n → k (h i) ≤ k (h j) → k' (h i) ≤ k' (h j)) : Ordered k' h n := by
  intro i hpos hi
  have hlt := parent_lt hpos
  exact hk _ _ (by omega) hi (ho i hpos hi)

/-! ## A hole -/

/-- The order of what does not touch the hole, and across it. -/
structure Hole (k : β → α) (h : Nat → β) (n hole : Nat) : Prop where
  off : ∀ i, 0 < i → i < n → i ≠ hole → parent i ≠ hole → k (h (parent i)) ≤ k (h i)
  across : 0 < hole → ∀ i, 0 < i → i < n → parent i = hole → k (h (parent hole)) ≤ k (h i)

/-- `x` fits over the children of the hole. -/
structure UpHole (k : β → α) (h : Nat → β) (n hole : Nat) (x : β) : Prop extends Hole k h n hole where
  below : ∀ i, 0 < i → i < n → parent i = hole → k x ≤ k (h i)

/-- `x` fits under the parent of the hole. -/
structure DownHole (k : β → α) (h : Nat → β) (n hole : Nat) (x : β) : Prop extends Hole k h n hole where
  above : 0 < hole → k (h (parent hole)) ≤ k x

theorem Ordered.takeOut (ho : Ordered k h n) (hole : Nat) (hlt : hole < n) : Hole k h n hole := by
  refine ⟨fun i hpos hi _ _ => ho i hpos hi, fun hpos i hi0 hi hp => ?_⟩
  have hup := ho hole hpos hlt
  have hdown := ho i hi0 hi
  rw [hp] at hdown
  exact le_trans hup hdown

theorem Ordered.upHole (ho : Ordered k h n) (x : β) : UpHole k h (n + 1) n x := by
  have hchild : ∀ i, 0 < i → i < n + 1 → parent i ≠ n := by
    intro i hpos hi hp
    have hlt := parent_lt hpos
    omega
  refine ⟨⟨fun i hpos hi hin _ => ho i hpos (by omega), fun _ i hpos hi hp => ?_⟩, fun i hpos hi hp => ?_⟩
  · exact absurd hp (hchild i hpos hi)
  · exact absurd hp (hchild i hpos hi)

theorem Hole.upHole (hh : Hole k h n hole) (hpos : 0 < hole) (hx : k x ≤ k (h (parent hole))) : UpHole k h n hole x :=
  ⟨hh, fun i hi0 hi hp => le_trans hx (hh.across hpos i hi0 hi hp)⟩

theorem UpHole.up (hh : UpHole k h n hole x) (hpos : 0 < hole) (hlt : hole < n) (hx : k x ≤ k (h (parent hole))) :
    UpHole k (update h hole (h (parent hole))) n (parent hole) x := by
  have hp := parent_lt hpos
  have hover : 0 < parent hole → k (h (parent (parent hole))) ≤ k (h (parent hole)) := by
    intro hpp
    have hpl := parent_lt hpp
    exact hh.off (parent hole) hpp (by omega) (by omega) (by omega)
  -- a child of the parent is the hole, which now holds the parent, or is where it was
  have hchild : ∀ i, 0 < i → i < n → parent i = parent hole →
      k (h (parent hole)) ≤ k (update h hole (h (parent hole)) i) := by
    intro i hi0 hi hpi
    by_cases hih : i = hole
    · rw [hih, update_self]
    · rw [update_of_ne hih]
      have hoff := hh.off i hi0 hi hih (by omega)
      rwa [hpi] at hoff
  refine ⟨⟨fun i hi0 hi hip hpi => ?_, fun hpp i hi0 hi hpi => ?_⟩, fun i hi0 hi hpi => ?_⟩
  · by_cases hih : i = hole
    · exact absurd (congrArg parent hih) hpi
    rw [update_of_ne hih]
    by_cases hph : parent i = hole
    · rw [hph, update_self]
      exact hh.across hpos i hi0 hi hph
    · rw [update_of_ne hph]
      exact hh.off i hi0 hi hih hph
  · have hpl := parent_lt hpp
    rw [update_of_ne (by omega)]
    exact le_trans (hover hpp) (hchild i hi0 hi hpi)
  · exact le_trans hx (hchild i hi0 hi hpi)

theorem UpHole.fill (hh : UpHole k h n hole x) (hx : 0 < hole → k (h (parent hole)) ≤ k x) :
    Ordered k (update h hole x) n := by
  intro i hi0 hi
  have hlt := parent_lt hi0
  by_cases hih : i = hole
  · rw [hih] at hlt hi0 ⊢
    rw [update_self, update_of_ne (by omega)]
    exact hx hi0
  rw [update_of_ne hih]
  by_cases hph : parent i = hole
  · rw [hph, update_self]
    exact hh.below i hi0 hi hph
  · rw [update_of_ne hph]
    exact hh.off i hi0 hi hih hph

theorem DownHole.down (hh : DownHole k h n hole x) {c : Nat} (hc0 : 0 < c) (hc : c < n) (hpc : parent c = hole)
    (hleast : ∀ i, 0 < i → i < n → parent i = hole → k (h c) ≤ k (h i)) (hx : k (h c) ≤ k x) :
    DownHole k (update h hole (h c)) n c x := by
  have hlt := parent_lt hc0
  refine ⟨⟨fun i hi0 hi hic hpi => ?_, fun _ i hi0 hi hpi => ?_⟩, fun _ => ?_⟩
  · have hil := parent_lt hi0
    by_cases hih : i = hole
    · rw [hih] at hi0 hil ⊢
      rw [update_self, update_of_ne (by omega)]
      exact hh.across hi0 c hc0 hc hpc
    rw [update_of_ne hih]
    by_cases hph : parent i = hole
    · rw [hph, update_self]
      exact hleast i hi0 hi hph
    · rw [update_of_ne hph]
      exact hh.off i hi0 hi hih hph
  · have hil := parent_lt hi0
    rw [hpc, update_self, update_of_ne (by omega)]
    have hoff := hh.off i hi0 hi (by omega) (by omega)
    rwa [hpi] at hoff
  · rw [hpc, update_self]
    exact hx

theorem DownHole.fill (hh : DownHole k h n hole x) (hx : ∀ i, 0 < i → i < n → parent i = hole → k x ≤ k (h i)) :
    Ordered k (update h hole x) n :=
  UpHole.fill ⟨hh.toHole, hx⟩ hh.above

end Heap
