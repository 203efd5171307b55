/-
A function changed at one argument.
-/
import Mathlib.Tactic.Ring

namespace Function

variable {α β γ : Type*} [DecidableEq α] {f g : α → β} {a : α} {b : β}

theorem same_update (P : β → γ) (h : P b = P (f a)) (x : α) : P (update f a b x) = P (f x) := by
  rw [apply_update fun _ => P, update_eq_self_iff.2 h]

theorem same_of_update (P : β → γ) (hg : g = update f a b) (h : P b = P (f a)) (x : α) : P (g x) = P (f x) :=
  hg ▸ same_update P h x

end Function
