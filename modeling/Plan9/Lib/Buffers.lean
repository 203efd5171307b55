/-
A stream that comes in buffers, each of which a function changes that keeps a state.
-/
import Mathlib.Data.List.Basic

namespace Buffers

variable {S A : Type} {f g : S → List A → S × List A}

def run (f : S → List A → S × List A) : S → List (List A) → S × List (List A)
  | s, [] => (s, [])
  | s, p :: ps => ((run f (f s p).1 ps).1, (f s p).2 :: (run f (f s p).1 ps).2)

/-- What undoes the change of one buffer, and goes on in the same state, undoes that of the stream in the same buffers. -/
theorem run_inverse (h : ∀ s p, g s (f s p).2 = ((f s p).1, p)) (s : S) (ps : List (List A)) :
    run g s (run f s ps).2 = ((run f s ps).1, ps) := by
  induction ps generalizing s with
  | nil => rfl
  | cons p ps ih => simp only [run, h, ih]

/-- Where two buffers do as much as one, the buffers are nothing to the stream. -/
theorem run_flatten (hnil : ∀ s, f s [] = (s, [])) (happend : ∀ s p q, f s (p ++ q) = ((f (f s p).1 q).1, (f s p).2 ++ (f (f s p).1 q).2))
    (s : S) (ps : List (List A)) : f s ps.flatten = ((run f s ps).1, (run f s ps).2.flatten) := by
  induction ps generalizing s with
  | nil => exact hnil s
  | cons p ps ih =>
    rw [List.flatten_cons, happend, ih]
    rfl

end Buffers
