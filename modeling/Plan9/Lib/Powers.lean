/-
Powers modulo a number: only what an exponent is modulo the order matters.
-/
import Mathlib.FieldTheory.Finite.Basic

namespace Powers

variable {a M : Int} {q u k : Nat}

theorem pow_congr (h : a ^ q ≡ 1 [ZMOD M]) (huk : u ≡ k [MOD q]) : a ^ u ≡ a ^ k [ZMOD M] := by
  have hmod : ∀ i, a ^ i ≡ a ^ (i % q) [ZMOD M] := by
    intro i
    have hpow := (h.pow (i / q)).mul_right (a ^ (i % q))
    rwa [one_pow, one_mul, ← pow_mul, ← pow_add, Nat.div_add_mod] at hpow
  have hk := hmod k
  rw [← show u % q = k % q from huk] at hk
  exact (hmod u).trans hk.symm

/-- **Fermat**, for every number when the exponent is not zero. -/
theorem pow_modEq_self {p : Nat} (hp : p.Prime) (hk : k ≡ 1 [MOD p - 1]) (h0 : k ≠ 0) : a ^ k ≡ a [ZMOD p] := by
  by_cases hdvd : (p : Int) ∣ a
  · exact (Int.modEq_zero_iff_dvd.2 (dvd_pow hdvd h0)).trans (Int.modEq_zero_iff_dvd.2 hdvd).symm
  · have hcop : IsCoprime a p := (((Nat.prime_iff_prime_int.1 hp).coprime_iff_not_dvd).2 hdvd).symm
    simpa using pow_congr (Int.ModEq.pow_card_sub_one_eq_one hp hcop) hk

end Powers
