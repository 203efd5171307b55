/-
One digit of a long division.

`w` is what is left of the dividend from the place of the digit on, and `v` the divisor. An
estimate of the digit is made of their high parts, `w'` and `v'`, which are those numbers without
the part below `X`. It is never too small, and when it is not more than `v'` it is
at most one too large.
-/
import Mathlib.Tactic.Ring

namespace LongDivision

variable {q e w v w' v' X low : Nat}

theorem fits_high (hq : q * v ≤ w) (hv : v' * X ≤ v) (hw : w < (w' + 1) * X) : q * v' ≤ w' := by
  have hlt : q * v' * X < (w' + 1) * X := by
    rw [Nat.mul_assoc]
    exact Nat.lt_of_le_of_lt ((Nat.mul_le_mul_left q hv).trans hq) hw
  exact Nat.le_of_lt_succ (Nat.lt_of_mul_lt_mul_right hlt)

theorem fits_but_one (he : e * v' ≤ w') (hle : e ≤ v') (hv' : v' * X ≤ v) (hv : v < (v' + 1) * X) (hw : w' * X ≤ w) :
    e * v ≤ w + v := by
  obtain ⟨d, rfl⟩ := Nat.exists_eq_add_of_le hv'
  have hd : d < X := by
    rw [Nat.add_mul, Nat.one_mul] at hv
    omega
  have hlow : e * d ≤ v' * X := Nat.mul_le_mul hle (Nat.le_of_lt hd)
  have hhigh : e * (v' * X) ≤ w := by
    rw [← Nat.mul_assoc]
    exact (Nat.mul_le_mul_right X he).trans hw
  rw [Nat.mul_add]
  omega

theorem digit_of_estimate (hv : 0 < v) (hge : w / v ≤ e) (hle : e * v ≤ w + v) :
    e * v ≤ w ∧ e = w / v ∨ w < e * v ∧ e = w / v + 1 := by
  by_cases hfit : e * v ≤ w
  · exact .inl ⟨hfit, Nat.le_antisymm ((Nat.le_div_iff_mul_le hv).2 hfit) hge⟩
  refine .inr ⟨Nat.lt_of_not_le hfit, ?_⟩
  have hgt : w / v < e := Nat.div_lt_of_lt_mul (by rw [Nat.mul_comm]; exact Nat.lt_of_not_le hfit)
  have hpred : e - 1 ≤ w / v := by
    rw [Nat.le_div_iff_mul_le hv, Nat.sub_mul, Nat.one_mul]
    omega
  omega

theorem place (low X w v : Nat) : low + X * w = low + X * (w % v) + X * (w / v) * v := by
  conv_lhs => rw [← Nat.mod_add_div w v]
  ring

end LongDivision
