/-
The 32-bit `int` of C on two's complement machines: the value an expression
has after it wrapped, and division, which truncates; and what signed integers
of other widths have in common with it.
-/
import Mathlib.Tactic.Ring

namespace CInt

/-- The `int` with the low 32 bits of `x`. -/
def int32 (x : Int) : Int := x.bmod (2 ^ 32)

theorem int32_eq {x : Int} (hlo : -2 ^ 31 ≤ x) (hhi : x < 2 ^ 31) : int32 x = x := by
  rw [int32, Int.bmod_eq_of_le (by omega) (by omega)]

@[simp] theorem int32_int32 (x : Int) : int32 (int32 x) = int32 x := Int.bmod_bmod

@[simp] theorem int32_add (x y : Int) : int32 (int32 x + y) = int32 (x + y) := Int.bmod_add_bmod

@[simp] theorem int32_sub (x y : Int) : int32 (int32 x - y) = int32 (x - y) := Int.bmod_sub_bmod

theorem int32_le_max (x : Int) : int32 x ≤ 0x7FFFFFFF := by
  have := @Int.bmod_lt x (2 ^ 32) (by decide)
  rw [int32]
  omega

theorem int32_emod (x : Int) : int32 x % 2 ^ 32 = x % 2 ^ 32 := Int.bmod_emod

theorem le_int32 (x : Int) : -2 ^ 31 ≤ int32 x := by
  have := @Int.le_bmod x (2 ^ 32) (by decide)
  rw [int32]
  omega

theorem int32_le {x : Int} (h : 0 ≤ x) : int32 x ≤ x := by
  by_cases hlt : x < 2 ^ 31
  · exact Int.le_of_eq (int32_eq (by omega) hlt)
  · have := @Int.bmod_lt x (2 ^ 32) (by decide)
    rw [int32]
    omega

theorem int32_tdiv_le {x k : Int} (h : 0 ≤ x) (hk : 0 < k) : (int32 x).tdiv k ≤ x / k := by
  by_cases hneg : 0 ≤ int32 x
  · rw [Int.tdiv_eq_ediv_of_nonneg hneg]
    exact Int.ediv_le_ediv hk (int32_le h)
  · have hle : 0 ≤ (-int32 x).tdiv k := Int.tdiv_nonneg (by omega) (by omega)
    have hpos : 0 ≤ x / k := Int.ediv_nonneg h (by omega)
    rw [Int.neg_tdiv] at hle
    omega

/-! ## Other widths -/

/-- The signed integer with the low `w` bits of `x`. -/
def wrap (w : Nat) (x : Int) : Int := x.bmod (2 ^ w)

theorem wrap_eq {w : Nat} {x : Int} (hlo : -2 ^ w ≤ 2 * x) (hhi : 2 * x < 2 ^ w) : wrap w x = x := by
  rw [wrap, Int.bmod_eq_of_le_mul_two]
  · exact (by omega : -(2 : Int) ^ w ≤ x * 2)
  · exact (by omega : x * 2 < (2 : Int) ^ w)

/-- What is too large by less than the range becomes negative. -/
theorem wrap_over {w : Nat} {x : Int} (hlo : 2 ^ w ≤ 2 * x) (hhi : x < 2 ^ w) : wrap w x < 0 := by
  have hmod : wrap w x = wrap w (x - 2 ^ w) := by
    have h := @Int.sub_bmod_right x (2 ^ w)
    exact h.symm
  rw [hmod, wrap_eq (by omega) (by omega)]
  omega

end CInt
