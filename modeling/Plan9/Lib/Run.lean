/-
Transition systems: the states that can be reached, and infinite runs.

`Reachable.invariant` is the rule for what holds in every reachable state,
`Path.invariant` for what holds of the steps taken as well, and
`eventually_of_measure` the rule for what a run is bound to do: a goal is reached if
from every state short of it a run comes to the goal or to a smaller measure.
-/
import Mathlib.Order.WellFounded
import Mathlib.Tactic.Ring

namespace Trans

variable {σ α : Type}

/-- The states that steps lead to from an initial one. -/
inductive Reachable (init : σ → Prop) (step : σ → α → σ → Prop) : σ → Prop
  | start {s : σ} : init s → Reachable init step s
  | next {s s' : σ} {a : α} : Reachable init step s → step s a s' → Reachable init step s'

variable {init : σ → Prop} {step : σ → α → σ → Prop}

theorem Reachable.invariant (Inv : σ → Prop) (hinit : ∀ s, init s → Inv s)
    (hstep : ∀ s a s', Inv s → step s a s' → Inv s') {s : σ} (h : Reachable init step s) : Inv s := by
  induction h with
  | start h => exact hinit _ h
  | next _ h ih => exact hstep _ _ _ ih h

theorem Reachable.mono {step' : σ → α → σ → Prop} (hstep : ∀ s a s', step s a s' → step' s a s') {s : σ}
    (h : Reachable init step s) : Reachable init step' s := by
  induction h with
  | start h => exact .start h
  | next _ h ih => exact .next ih (hstep _ _ _ h)

/-- The steps from one state to another, in order. -/
inductive Path (step : σ → α → σ → Prop) (s : σ) : List α → σ → Prop
  | nil : Path step s [] s
  | snoc {s' s'' : σ} {as : List α} {a : α} : Path step s as s' → step s' a s'' → Path step s (as ++ [a]) s''

theorem Path.invariant (Inv : List α → σ → Prop) {P : α → Prop} {s s' : σ} {as : List α} (hstart : Inv [] s)
    (hstep : ∀ as s a s', Inv as s → P a → step s a s' → Inv (as ++ [a]) s') (h : Path step s as s')
    (hP : ∀ a ∈ as, P a) : Inv as s' := by
  induction h with
  | nil => exact hstart
  | snoc _ h ih => exact hstep _ _ _ _ (ih (fun a ha => hP a (by simp [ha]))) (hP _ (by simp)) h

/-- An infinite run. Where no step is taken the state stays. -/
structure Run (init : σ → Prop) (step : σ → α → σ → Prop) where
  state : Nat → σ
  act : Nat → Option α
  start : init (state 0)
  next : ∀ t, match act t with
    | none => state (t + 1) = state t
    | some a => step (state t) a (state (t + 1))

theorem Run.step_of_act (run : Run init step) {t : Nat} {a : α} (h : run.act t = some a) :
    step (run.state t) a (run.state (t + 1)) := by
  have := run.next t
  rwa [h] at this

theorem lasts_until {P Q : Nat → Prop} (hstep : ∀ t, P t → P (t + 1) ∨ Q t) {t u : Nat} (htu : t ≤ u) (h : P t) :
    P u ∨ ∃ v, t ≤ v ∧ v < u ∧ Q v := by
  induction htu with
  | refl => exact .inl h
  | @step u htu ih =>
    rcases ih with hP | ⟨v, htv, hvu, hQ⟩
    · rcases hstep u hP with hP' | hQ
      · exact .inl hP'
      · exact .inr ⟨u, htu, Nat.lt_succ_self u, hQ⟩
    · exact .inr ⟨v, htv, Nat.lt_succ_of_lt hvu, hQ⟩

theorem eventually_of_measure {M : Type} {r : M → M → Prop} (hr : WellFounded r) {P : Nat → M → Prop}
    {Goal : Nat → Prop}
    (h : ∀ t m, P t m → ∃ u, t ≤ u ∧ (Goal u ∨ ∃ m', r m' m ∧ P u m')) {t : Nat} {m : M} (ht : P t m) :
    ∃ u, t ≤ u ∧ Goal u := by
  induction m using hr.induction generalizing t with
  | _ m ih =>
    obtain ⟨u, htu, hg | ⟨m', hlt, hP⟩⟩ := h t m ht
    · exact ⟨u, htu, hg⟩
    · obtain ⟨v, huv, hg⟩ := ih m' hlt hP
      exact ⟨v, Nat.le_trans htu huv, hg⟩

end Trans
