/-
Programs that act on a state and may fail, with a measure of the state that none of them
ever makes less: what a program comes to as long as the measure is within a bound at its
end. It was all along, so a program after another one starts within it (`Within.bind`).
-/
import Mathlib.Tactic.Ring

variable {σ ε α β : Type} {size : σ → Nat}

/-- It gives something or fails, and leaves a state that is no smaller. -/
structure Growing (size : σ → Nat) (ε α : Type) where
  run : σ → Except ε α × σ
  grows : ∀ s, size s ≤ size (run s).2

namespace Growing

def pure (a : α) : Growing size ε α := ⟨fun s => (.ok a, s), fun _ => Nat.le_refl _⟩

def fail (e : ε) : Growing size ε α := ⟨fun s => (.error e, s), fun _ => Nat.le_refl _⟩

def bind (p : Growing size ε α) (f : α → Growing size ε β) : Growing size ε β where
  run s :=
    match p.run s with
    | (.ok a, s') => (f a).run s'
    | (.error e, s') => (.error e, s')
  grows := by
    intro s
    have hp := p.grows s
    rcases he : p.run s with ⟨e | a, s'⟩
    · rw [he] at hp
      exact hp
    · rw [he] at hp
      exact Nat.le_trans hp ((f a).grows s')

instance : Monad (Growing size ε) where
  pure := pure
  bind := bind

variable {p : Growing size ε α} {f : α → Growing size ε β} {s s' : σ}

theorem run_bind_ok {a : α} (h : p.run s = (.ok a, s')) : (p >>= f).run s = (f a).run s' := by
  change (match p.run s with
    | (.ok a, s') => (f a).run s'
    | (.error e, s') => (.error e, s')) = _
  rw [h]

theorem run_bind_error {e : ε} (h : p.run s = (.error e, s')) : (p >>= f).run s = (.error e, s') := by
  change (match p.run s with
    | (.ok a, s') => (f a).run s'
    | (.error e, s') => (.error e, s')) = _
  rw [h]

end Growing

section

variable (bound : Nat)

/-- As long as the measure stays within the bound, the program gives something, and `Q` holds of it. -/
def Within (Q : α → σ → Prop) (p : Growing size ε α) (s : σ) : Prop :=
  size (p.run s).2 ≤ bound → ∃ a, (p.run s).1 = .ok a ∧ Q a (p.run s).2

variable {bound} {p : Growing size ε α} {f : α → Growing size ε β} {Q : α → σ → Prop} {R : β → σ → Prop} {s : σ}

theorem Within.pure {a : α} (h : Q a s) : Within bound Q (pure a : Growing size ε α) s := fun _ => ⟨a, rfl, h⟩

theorem Within.mono {Q' : α → σ → Prop} (h : Within bound Q p s) (hQ : ∀ a s', Q a s' → Q' a s') :
    Within bound Q' p s := by
  intro hle
  obtain ⟨a, ha, hq⟩ := h hle
  exact ⟨a, ha, hQ a _ hq⟩

theorem Within.bind (h : Within bound Q p s) (hf : ∀ a s', size s' ≤ bound → Q a s' → Within bound R (f a) s') :
    Within bound R (p >>= f) s := by
  intro hle
  rcases hp : p.run s with ⟨e | a, s'⟩
  · rw [Growing.run_bind_error hp] at hle
    obtain ⟨a, ha, -⟩ := h (by rw [hp]; exact hle)
    rw [hp] at ha
    cases ha
  rw [Growing.run_bind_ok hp] at hle ⊢
  have hmid := Nat.le_trans ((f a).grows s') hle
  obtain ⟨a', ha, hq⟩ := h (by rw [hp]; exact hmid)
  rw [hp] at ha hq
  obtain rfl : a = a' := Except.ok.inj ha
  exact hf a s' hmid hq hle

end
