/-
What a fallible computation comes to: a result of which `Q` holds, or an error of
which `B` does. The rules follow the computation, one for each way it is put together.
-/
import Mathlib.Tactic.Ring

variable {ε α β : Type}

def Outcome (B : ε → Prop) (Q : α → Prop) : Except ε α → Prop
  | .ok a => Q a
  | .error e => B e

namespace Outcome

variable {B : ε → Prop} {Q : α → Prop} {R : β → Prop} {x : Except ε α}

theorem ok {a : α} (h : Q a) : Outcome B Q (.ok a) := h

theorem bind {f : α → Except ε β} (hx : Outcome B Q x) (hf : ∀ a, Q a → Outcome B R (f a)) :
    Outcome B R (x >>= f) := by
  cases x with
  | ok a => exact hf a hx
  | error e => exact hx

theorem mono {B' : ε → Prop} {Q' : α → Prop} (h : Outcome B Q x) (hB : ∀ e, B e → B' e) (hQ : ∀ a, Q a → Q' a) :
    Outcome B' Q' x := by
  cases x with
  | ok a => exact hQ a h
  | error e => exact hB e h

theorem any : Outcome (fun _ => True) (fun _ => True) x := by
  cases x with
  | ok a => trivial
  | error e => trivial

theorem exists_ok (h : Outcome B Q x) (hB : ∀ e, ¬ B e) : ∃ a, x = .ok a ∧ Q a := by
  cases x with
  | ok a => exact ⟨a, rfl, h⟩
  | error e => exact absurd h (hB e)

theorem of_ok {a : α} (h : Outcome B Q x) (hx : x = .ok a) : Q a := by
  rw [hx] at h
  exact h

theorem of_error {e : ε} (h : Outcome B Q x) (hx : x = .error e) : B e := by
  rw [hx] at h
  exact h

end Outcome

/-- What one comes to, the other comes to with `f`. -/
def Follows (f : α → β) (x : Except ε α) (y : Except ε β) : Prop := ∀ a, x = .ok a → y = .ok (f a)

namespace Follows

variable {γ δ : Type} {f : α → β} {x x' : Except ε α} {y y' : Except ε β}

theorem ok {a : α} : Follows f (.ok a : Except ε α) (.ok (f a)) := by
  intro b h
  rw [Except.ok.inj h]

theorem error {e : ε} : Follows f (.error e) y := nofun

theorem bind {g : γ → δ} {k : α → Except ε γ} {k' : β → Except ε δ} (h : Follows f x y)
    (hk : ∀ a, x = .ok a → Follows g (k a) (k' (f a))) : Follows g (x >>= k) (y >>= k') := by
  intro c hc
  cases hx : x with
  | error e =>
    rw [hx] at hc
    cases hc
  | ok a =>
    rw [hx] at hc
    rw [h a hx]
    exact hk a hx c hc

theorem ite {p : Prop} [Decidable p] (h : p → Follows f x y) (h' : ¬ p → Follows f x' y') :
    Follows f (if p then x else x') (if p then y else y') := by
  by_cases hp : p
  · rw [if_pos hp, if_pos hp]
    exact h hp
  · rw [if_neg hp, if_neg hp]
    exact h' hp

end Follows
