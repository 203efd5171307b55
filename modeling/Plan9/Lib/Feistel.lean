/-
Feistel networks: a round changes one half of a block by what a round function makes of a key and
the other half, which need not be invertible, and the halves take turns.
-/
import Mathlib.Data.List.Basic

namespace Feistel

variable {K W : Type} (add : W → W → W) (f : K → W → W)

/-- The rounds, the first of which changes the first half. -/
def run : List K → W × W → W × W
  | [], s => s
  | k :: ks, (a, b) => run ks (b, add a (f k b))

theorem run_append (ks js : List K) (s : W × W) : run add f (ks ++ js) s = run add f js (run add f ks s) := by
  induction ks generalizing s with
  | nil => rfl
  | cons k ks ih => exact ih _

/-- The keys backwards undo the rounds, the halves the other way round. -/
theorem run_reverse (hadd : ∀ a b, add (add a b) b = a) (ks : List K) (s : W × W) :
    run add f ks.reverse (run add f ks s).swap = s.swap := by
  induction ks generalizing s with
  | nil => rfl
  | cons k ks ih =>
    obtain ⟨a, b⟩ := s
    rw [List.reverse_cons, run_append]
    show run add f [k] (run add f ks.reverse (run add f ks (b, add a (f k b))).swap) = _
    rw [ih]
    exact congrArg (b, ·) (hadd a _)

end Feistel
