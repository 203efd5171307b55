/-
What the functions of `libmp` come to on values: `mpmod` gives the residue, but `n` where
a negative number is a multiple of `n`, and `mpextendedgcd` gives the greatest common
divisor and the two factors.

In the loops `u = A * a + B * b` and `v = C * a + D * b` throughout. The factors can be halved
with `u` because `a` or `b` is odd (`half_even`).
-/
import Plan9.Libmp.Mpint
import Mathlib.Data.Nat.Prime.Basic
import Mathlib.Tactic.Ring
import Mathlib.Tactic.LinearCombination

namespace Plan9.Libmp

/-! ## Division -/

theorem sign_mul_natAbs_div (x : Int) (d : Nat) : x.sign * (x.natAbs / d : Nat) = x.tdiv d := by
  cases x with
  | ofNat n =>
    cases n with
    | zero => simp
    | succ n => exact Int.one_mul _
  | negSucc n => exact Int.neg_one_mul _

theorem sign_mul_natAbs_mod (x : Int) (d : Nat) : x.sign * (x.natAbs % d : Nat) = x.tmod d := by
  cases x with
  | ofNat n =>
    cases n with
    | zero => simp
    | succ n => exact Int.one_mul _
  | negSucc n => exact Int.neg_one_mul _

theorem mpright_eq (b : Int) (s : Nat) : mpright b s = b.tdiv (2 ^ s : Nat) := by
  rw [mpright, Nat.shiftRight_eq_div_pow, sign_mul_natAbs_div]

theorem shiftLoop_eq {j : Nat} : ∀ (k s : Nat), s + k ≥ j → s ≤ j → shiftLoop (2 ^ j) k s = j := by
  intro k
  induction k with
  | zero => intro s h hs; exact Nat.le_antisymm hs h
  | succ k ih =>
    intro s h hs
    rw [shiftLoop, Nat.shiftRight_eq_div_pow, Nat.pow_div hs (by decide), show ∀ x : Nat, x &&& 1 = x % 2 from
      fun x => Nat.and_two_pow_sub_one_eq_mod x 1]
    rcases Nat.eq_or_lt_of_le hs with rfl | hlt
    · rw [Nat.sub_self, if_neg (by decide)]
    · rw [if_pos]
      · exact ih _ (by omega) (by omega)
      · rw [show j - s = (j - s - 1) + 1 by omega, Nat.pow_succ, Nat.mul_mod_left]

/-- Division by a positive number truncates, when there is a dividend or nothing is stored. -/
theorem mpdivOver_eq {low : Nat} {x d : Int} (hx : x ≠ 0 ∨ low = 0) (hd : 0 < d) :
    mpdivOver low x d = some (x.tdiv d, x.tmod d) := by
  obtain ⟨n, rfl⟩ := Int.eq_ofNat_of_zero_le (Int.le_of_lt hd)
  have hn : n ≠ 0 := by omega
  rw [mpdivOver, Int.natAbs_natCast, if_neg hn]
  split
  · rename_i h
    obtain ⟨j, rfl⟩ := (Nat.and_sub_one_eq_zero_iff_isPowerOfTwo hn).1 h.2
    have hj : j < 32 := (Nat.pow_lt_pow_iff_right (by decide)).1 h.1
    have hr : (if x = 0 then ((low &&& (2 ^ j - 1) : Nat) : Int) else x.sign * (x.natAbs &&& (2 ^ j - 1) : Nat)) =
        x.sign * (x.natAbs &&& (2 ^ j - 1) : Nat) := by
      split
      · rename_i h0
        rw [hx.resolve_left (not_not_intro h0), h0, Nat.zero_and, Int.sign_zero, Int.zero_mul]
        rfl
      · rfl
    rw [hr, shiftLoop_eq 32 0 (by omega) (by omega), mpright_eq, Nat.and_two_pow_sub_one_eq_mod, sign_mul_natAbs_mod]
  · rfl

theorem mpdiv_eq (x : Int) {d : Int} (hd : 0 < d) : mpdiv x d = some (x.tdiv d, x.tmod d) := mpdivOver_eq (.inr rfl) hd

/-- **`mpmod`** gives the residue, or `n` for a negative multiple of `n`. -/
theorem mpmodOver_eq {low : Nat} {x n : Int} (hx : x ≠ 0 ∨ low = 0) (hn : 0 < n) :
    mpmodOver low x n = some (if x < 0 ∧ x % n = 0 then n else x % n) := by
  rw [mpmodOver, mpdivOver_eq hx hn]
  dsimp only
  by_cases hx : x < 0
  · rw [if_pos hx, mpmagsub, Int.natAbs_tmod, Int.natAbs_of_nonneg (Int.le_of_lt hn)]
    obtain ⟨y, rfl⟩ : ∃ y : Nat, x = -(y : Int) := ⟨x.natAbs, by omega⟩
    obtain ⟨m, rfl⟩ := Int.eq_ofNat_of_zero_le (Int.le_of_lt hn)
    have hm : 0 < m := by omega
    rw [Int.natAbs_neg, Int.natAbs_natCast, Int.natAbs_natCast]
    have hdiv := Nat.div_add_mod y m
    have hlt := Nat.mod_lt y hm
    by_cases h0 : y % m = 0
    · have : (-(y : Int)) % m = 0 := Int.emod_eq_zero_of_dvd ((Int.dvd_neg).2 (Int.natCast_dvd_natCast.2 (Nat.dvd_of_mod_eq_zero h0)))
      rw [if_pos ⟨hx, this⟩, h0]
      simp
    have : (-(y : Int)) % m = m - (y % m : Nat) := by
      have hy : (y : Int) = m * (y / m : Nat) + (y % m : Nat) := by exact_mod_cast hdiv.symm
      have heq : -(y : Int) = (m - (y % m : Nat)) + m * (-(y / m : Nat) - 1) := by
        rw [hy]
        ring
      rw [heq, Int.add_mul_emod_self_left, Int.emod_eq_of_lt (by omega) (by omega)]
    rw [this, if_neg (by omega)]
  · rw [if_neg hx, if_neg (by omega), Int.tmod_eq_emod_of_nonneg (by omega)]

theorem mpmod_eq (x : Int) {n : Int} (hn : 0 < n) : mpmod x n = some (if x < 0 ∧ x % n = 0 then n else x % n) :=
  mpmodOver_eq (.inr rfl) hn

/-- The remainder of a dividend without digits. -/
def stale (low : Nat) (n : Int) : Nat := if n < 2 ^ 32 ∧ n.natAbs &&& (n.natAbs - 1) = 0 then low &&& (n.natAbs - 1) else 0

theorem mpmodOver_zero (low : Nat) {n : Int} (hn : 0 < n) : mpmodOver low 0 n = some (stale low n : Int) := by
  obtain ⟨m, rfl⟩ := Int.eq_ofNat_of_zero_le (Int.le_of_lt hn)
  have hm : m ≠ 0 := by omega
  have hlt : ((m : Int) < 2 ^ 32) ↔ m < 2 ^ 32 := by omega
  rw [mpmodOver, mpdivOver, stale, Int.natAbs_natCast, if_neg hm]
  by_cases h : m < 2 ^ 32 ∧ m &&& (m - 1) = 0
  · have hdigit : (if (m : Int) < 2 ^ 32 ∧ m &&& (m - 1) = 0 then low &&& (m - 1) else 0) = low &&& (m - 1) :=
      if_pos ⟨hlt.2 h.1, h.2⟩
    rw [if_pos h, hdigit]
    dsimp only
    rw [if_neg (Int.lt_irrefl 0), if_pos rfl]
  · rw [if_neg h, if_neg fun h' => h ⟨hlt.1 h'.1, h'.2⟩]
    dsimp only
    rw [if_neg (Int.lt_irrefl 0), Int.zero_tmod]
    rfl

theorem stale_lt (low : Nat) {n : Int} (hn : 0 < n) : (stale low n : Int) < n := by
  have hle : low &&& (n.natAbs - 1) ≤ n.natAbs - 1 := Nat.and_le_right
  unfold stale
  split <;> omega

/-! ## Greatest common divisors -/

theorem iseven_iff (a : Int) : iseven a = true ↔ a % 2 = 0 := by
  rw [iseven, decide_eq_true_iff]
  omega

theorem mpright_one {b : Int} (h : b % 2 = 0) : 2 * mpright b 1 = b := by
  rw [mpright_eq, show ((2 ^ 1 : Nat) : Int) = 2 from rfl]
  have := Int.mul_tdiv_cancel' (Int.dvd_of_emod_eq_zero h)
  omega

theorem half_even {a b A B : Int} (hodd : a % 2 = 1 ∨ b % 2 = 1) (heven : (A * a + B * b) % 2 = 0)
    (hAB : A % 2 = 1 ∨ B % 2 = 1) : (A + b) % 2 = 0 ∧ (B - a) % 2 = 0 := by
  rw [Int.add_emod, Int.mul_emod, Int.mul_emod B] at heven
  rcases Int.emod_two_eq a with ha | ha <;> rcases Int.emod_two_eq b with hb | hb <;>
    rcases Int.emod_two_eq A with hA | hA <;> rcases Int.emod_two_eq B with hB | hB <;>
    rw [ha, hb, hA, hB] at heven <;> omega

/-- A combination of `a` and `b`, and its factors. -/
def Comb (a b : Int) (t : Int × Int × Int) : Prop := t.1 = t.2.1 * a + t.2.2 * b

theorem halfLoop_spec {a b : Int} (hodd : a % 2 = 1 ∨ b % 2 = 1) : ∀ (k : Nat) (u A B : Int), 0 < u → u.natAbs ≤ k →
    Comb a b (u, A, B) → ∃ u' A' B', halfLoop a b k u A B = (u', A', B') ∧ u' % 2 = 1 ∧ 0 < u' ∧ u' ≤ u ∧
      (∃ j : Nat, u = 2 ^ j * u') ∧ Comb a b (u', A', B') := by
  intro k
  induction k with
  | zero => intro u A B hu hk _; omega
  | succ k ih =>
    intro u A B hu hk hcomb
    rw [halfLoop]
    by_cases he : u % 2 = 0
    · rw [if_pos ((iseven_iff u).2 he)]
      have hu2 := mpright_one he
      -- the factors that are halved
      obtain ⟨A1, B1, hpair, hA, hB, hsum⟩ : ∃ A1 B1, (if !iseven A || !iseven B then (A + b, B - a) else (A, B)) = (A1, B1) ∧
          A1 % 2 = 0 ∧ B1 % 2 = 0 ∧ u = A1 * a + B1 * b := by
        by_cases hAB : A % 2 = 0 ∧ B % 2 = 0
        · refine ⟨A, B, ?_, hAB.1, hAB.2, hcomb⟩
          rw [(iseven_iff A).2 hAB.1, (iseven_iff B).2 hAB.2]
          rfl
        have heven : (A * a + B * b) % 2 = 0 := by rw [← hcomb]; exact he
        obtain ⟨hA, hB⟩ := half_even hodd heven (by omega)
        refine ⟨A + b, B - a, if_pos ?_, hA, hB, ?_⟩
        · by_contra hno
          simp only [Bool.or_eq_true, Bool.not_eq_true', not_or, Bool.not_eq_false, iseven_iff] at hno
          exact hAB hno
        · rw [show u = A * a + B * b from hcomb]
          ring
      rw [hpair]
      have hA2 := mpright_one hA
      have hB2 := mpright_one hB
      have hcomb' : Comb a b (mpright u 1, mpright A1 1, mpright B1 1) := by
        have h2 : 2 * mpright u 1 = 2 * (mpright A1 1 * a + mpright B1 1 * b) := by
          rw [hu2, hsum]
          nth_rewrite 1 [← hA2]
          nth_rewrite 1 [← hB2]
          ring
        exact Int.eq_of_mul_eq_mul_left (by decide) h2
      obtain ⟨u', A', B', heq, hodd', hpos, _, ⟨j, hj⟩, hc⟩ := ih _ _ _ (by omega) (by omega) hcomb'
      refine ⟨u', A', B', heq, hodd', hpos, by omega, ⟨j + 1, ?_⟩, hc⟩
      rw [← hu2, hj, Int.pow_succ]
      ring
    · rw [if_neg (fun h => he ((iseven_iff u).1 h))]
      exact ⟨u, A, B, rfl, by omega, hu, Int.le_refl u, ⟨0, by ring⟩, hcomb⟩

/-- Powers of two do not count where the divisor is odd. -/
theorem gcd_two_pow_mul {u v : Int} (j : Nat) (h : Int.gcd (2 ^ j * u) v % 2 = 1) :
    Int.gcd (2 ^ j * u) v = Int.gcd u v := by
  cases j with
  | zero => rw [Int.pow_zero, Int.one_mul]
  | succ j =>
    -- `v` is odd, or two would divide both
    have hv : v.natAbs % 2 = 1 := by
      by_contra hno
      have hdu : 2 ∣ (2 ^ (j + 1) * u).natAbs := by
        rw [Int.natAbs_mul, Int.natAbs_pow]
        exact Dvd.dvd.mul_right (Dvd.intro_left (2 ^ j) rfl) _
      have := Nat.dvd_gcd hdu (show 2 ∣ v.natAbs by omega)
      have : 2 ∣ Int.gcd (2 ^ (j + 1) * u) v := this
      omega
    have hcop : Nat.Coprime (2 ^ (j + 1)) v.natAbs := Nat.Coprime.pow_left _ (Nat.coprime_two_left.2 (Nat.odd_iff.2 hv))
    rw [Int.gcd, Int.natAbs_mul, Int.natAbs_pow]
    exact hcop.gcd_mul_left_cancel _

theorem egcdLoop_spec {a b : Int} (hodd : a % 2 = 1 ∨ b % 2 = 1) {d : Nat} (hd : d % 2 = 1) : ∀ (k : Nat) (u A B v C D : Int),
    0 < u → 0 < v → u + v ≤ k → Comb a b (u, A, B) → Comb a b (v, C, D) → Int.gcd u v = d →
    ∃ x y : Int, egcdLoop a b k (u, A, B) (v, C, D) = some ((d : Int), x, y) ∧ Comb a b (d, x, y) := by
  intro k
  induction k with
  | zero => intro u A B v C D hu hv hk; omega
  | succ k ih =>
    intro u A B v C D hu hv hk hcu hcv hgcd
    obtain ⟨u', _, _, hu', -, hupos, _, ⟨i, hi⟩, hcu'⟩ := halfLoop_spec hodd u.natAbs u A B hu le_rfl hcu
    obtain ⟨v', C', D', hv', -, hvpos, _, ⟨j, hj⟩, hcv'⟩ := halfLoop_spec hodd v.natAbs v C D hv le_rfl hcv
    have hgcd' : Int.gcd u' v' = d := by
      have h1 : Int.gcd u' v = d := by
        rw [hi] at hgcd
        rw [← hgcd, gcd_two_pow_mul i (by rw [hgcd]; exact hd)]
      rw [hj, Int.gcd_comm] at h1
      rw [← h1, gcd_two_pow_mul j (by rw [h1]; exact hd), Int.gcd_comm]
    rw [egcdLoop, hu']
    dsimp only
    rw [hv']
    simp only [Comb] at hcu' hcv'
    by_cases hge : u' ≥ v'
    · rw [if_pos hge]
      by_cases h0 : u' - v' = 0
      · have hv'd : v' = d := by
          rw [← hgcd', show u' = v' by omega, Int.gcd_self]
          omega
        rw [if_pos h0, ← hv'd]
        exact ⟨C', D', rfl, hcv'⟩
      rw [if_neg h0]
      refine ih _ _ _ _ _ _ (by omega) hvpos (by omega) ?_ hcv' ?_
      · simp only [Comb]
        rw [hcu', hcv']
        ring
      · rw [← hgcd']
        exact Int.gcd_sub_self_left v' u'
    rw [if_neg hge]
    refine ih _ _ _ _ _ _ hupos (by omega) (by omega) hcu' ?_ ?_
    · simp only [Comb]
      rw [hcu', hcv']
      ring
    · rw [← hgcd']
      exact Int.gcd_sub_self_right u' v'

theorem bothLoop_spec : ∀ (k : Nat) (a b : Int) (g : Nat), 0 < a → 0 < b → a.natAbs ≤ k →
    ∃ a' b' i, bothLoop k a b g = (a', b', g + i) ∧ a = 2 ^ i * a' ∧ b = 2 ^ i * b' ∧ 0 < a' ∧ 0 < b' ∧ (a' % 2 = 1 ∨ b' % 2 = 1) := by
  intro k
  induction k with
  | zero => intro a b g ha _ hk; omega
  | succ k ih =>
    intro a b g ha hb hk
    rw [bothLoop]
    by_cases he : a % 2 = 0 ∧ b % 2 = 0
    · rw [if_pos (by rw [(iseven_iff a).2 he.1, (iseven_iff b).2 he.2]; rfl)]
      have ha2 := mpright_one he.1
      have hb2 := mpright_one he.2
      obtain ⟨a', b', i, heq, hai, hbi, hrest⟩ := ih (mpright a 1) (mpright b 1) (g + 1) (by omega) (by omega) (by omega)
      refine ⟨a', b', i + 1, ?_, ?_, ?_, hrest⟩
      · rw [heq, Nat.add_assoc, Nat.add_comm 1]
      · rw [← ha2, hai, Int.pow_succ]
        ring
      · rw [← hb2, hbi, Int.pow_succ]
        ring
    rw [if_neg]
    · exact ⟨a, b, 0, rfl, by ring, by ring, ha, hb, by omega⟩
    · rw [Bool.and_eq_true, iseven_iff, iseven_iff]
      exact he

theorem mpleft_eq {b : Int} (h : 0 < b) (s : Nat) : mpleft b s = 2 ^ s * b := by
  rw [mpleft, Int.sign_eq_one_of_pos h, Nat.shiftLeft_eq, Int.natCast_mul, Int.natAbs_of_nonneg (Int.le_of_lt h)]
  push_cast
  ring

/-- **`mpextendedgcd`** returns the greatest common divisor and factors for it. -/
theorem mpextendedgcd_spec {a b : Int} (ha : 0 < a) (hb : 0 < b) :
    ∃ x y, mpextendedgcd a b = some ((Int.gcd a b : Int), x, y) ∧ a * x + b * y = Int.gcd a b := by
  obtain ⟨a', b', g, hboth, hag, hbg, hapos, hbpos, hodd⟩ := bothLoop_spec a.natAbs a b 0 ha hb le_rfl
  have hd : Int.gcd a' b' % 2 = 1 := by
    have h1 := Int.gcd_dvd_left (a := a') (b := b')
    have h₂ := Int.gcd_dvd_right (a := a') (b := b')
    by_contra hno
    have h2 : (2 : Int) ∣ Int.gcd a' b' := by omega
    have := h2.trans h1
    have := h2.trans h₂
    omega
  have hgcd : (Int.gcd a b : Int) = 2 ^ g * Int.gcd a' b' := by
    rw [hag, hbg, Int.gcd_mul_left, Int.natCast_mul, Int.natAbs_pow]
    rfl
  obtain ⟨x, y, hloop, hcomb⟩ := egcdLoop_spec hodd hd (a'.natAbs + b'.natAbs) a' 1 0 b' 0 1 hapos hbpos (by omega)
    (by simp only [Comb]; ring) (by simp only [Comb]; ring) rfl
  refine ⟨x, y, ?_, ?_⟩
  · rw [mpextendedgcd, if_neg (by omega), if_neg (by omega), if_neg (by omega), hboth]
    dsimp only
    rw [hloop]
    dsimp only
    rw [Nat.zero_add, mpleft_eq (by omega), hgcd]
  simp only [Comb] at hcomb
  rw [hgcd, hcomb]
  nth_rewrite 1 [hag]
  nth_rewrite 1 [hbg]
  ring

/-- **`mpinvert`** finds an inverse of what has one. -/
theorem mpinvert_spec {b m : Int} (hb : 0 < b) (hm : 0 < m) (h : Int.gcd b m = 1) :
    ∃ r, mpinvert b m = some r ∧ 0 ≤ r ∧ (b * r) % m = 1 % m := by
  obtain ⟨x, y, heq, hxy⟩ := mpextendedgcd_spec hb hm
  rw [h] at heq hxy
  have hinv : (b * x) % m = 1 % m := by
    rw [show b * x = 1 + m * (-y) by push_cast at hxy; linear_combination hxy, Int.add_mul_emod_self_left]
  refine ⟨if x < 0 ∧ x % m = 0 then m else x % m, ?_, ?_, ?_⟩
  · rw [mpinvert, heq]
    dsimp only
    rw [if_neg (by decide), mpmod_eq x hm]
  · have := Int.emod_nonneg x (show m ≠ 0 by omega)
    split <;> omega
  split
  · rename_i hx
    rw [← hinv, Int.mul_emod b x, hx.2, Int.mul_zero, Int.zero_emod, Int.mul_emod_left]
  · rw [← hinv, Int.mul_emod, Int.emod_emod, ← Int.mul_emod]

end Plan9.Libmp
