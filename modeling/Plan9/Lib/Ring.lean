/-
A ring of `s` slots that holds a queue from the slot `f % s` on.

`Holds` is about the slots of the queue only. Taking the first moves `f`, putting
one behind the last stores it in the slot after it.
-/
import Mathlib.Data.Int.ModEq
import Mathlib.Data.List.Basic
import Mathlib.Tactic.Ring

namespace Ring

open Function

variable {V : Type} {s f : Nat} {v : Nat → V} {l : List V} {x y : V}

def Holds (s f : Nat) (v : Nat → V) (l : List V) : Prop := ∀ i x, l[i]? = some x → v ((f + i) % s) = x

theorem Holds.empty : Holds s f v [] := by
  intro i x hx
  simp at hx

theorem Holds.first (h : Holds s f v (x :: l)) : v (f % s) = x := h 0 x rfl

theorem Holds.pop (h : Holds s f v (x :: l)) : Holds s (f + 1) v l := by
  intro i y hy
  rw [Nat.add_assoc, Nat.add_comm 1 i]
  exact h (i + 1) y (by simpa using hy)

theorem slot_ne {i j : Nat} (hij : i < j) (hj : j < s) : (f + i) % s ≠ (f + j) % s := by
  intro heq
  have hmod : s ∣ (f + j) - (f + i) := (Nat.modEq_iff_dvd' (by omega)).1 heq
  have hle := Nat.le_of_dvd (by omega) hmod
  omega

theorem Holds.push (h : Holds s f v l) (hl : l.length < s) :
    Holds s f (update v ((f + l.length) % s) x) (l ++ [x]) := by
  intro i y hy
  by_cases hi : i < l.length
  · rw [List.getElem?_append_left hi] at hy
    rw [update_of_ne (slot_ne hi hl)]
    exact h i y hy
  have hlen : i = l.length := by
    rcases Nat.lt_or_eq_of_le (Nat.le_of_not_lt hi) with hlt | heq
    · rw [List.getElem?_eq_none (by simp; omega)] at hy
      cases hy
    · exact heq.symm
  subst hlen
  simpa using hy

theorem Holds.replace (h : Holds s f v (y :: l)) (hl : l.length + 1 = s) :
    Holds s (f + 1) (update v (f % s) x) (l ++ [x]) := by
  have hslot : (f + 1 + l.length) % s = f % s := by
    rw [Nat.add_assoc, Nat.add_comm 1, hl, Nat.add_mod_right]
  rw [← hslot]
  exact h.pop.push (by omega)

end Ring
