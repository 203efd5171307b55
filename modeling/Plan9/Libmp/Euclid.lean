/-
The extended Euclidean algorithm: `mpeuclid` of libmp, which divides where `mpextendedgcd`
halves, and the inverses that are found with the latter.
-/
import Plan9.Libmp.MpintFacts

namespace Plan9.Libmp

/-- `while(b->top != 0 && b->sign > 0)`, in at most `k` rounds: `a`, `x2` and `y2` at the end. -/
def euclidLoop : Nat → Int × Int × Int → Int × Int × Int → Option (Int × Int × Int)
  | 0, _, _ => none
  | k + 1, (a, x2, y2), (b, x1, y1) =>
    if b ≠ 0 ∧ b > 0 then
      match mpdiv a b with
      | none => none
      | some (q, r) => euclidLoop k (b, x1, y1) (r, x2 - q * x1, y2 - q * y1)
    else some (a, x2, y2)

/-- `d`, `x` and `y`; `none` is `sysfatal`, or that the loop is still going. -/
def mpeuclid (a b : Int) : Option (Int × Int × Int) :=
  if a < 0 ∨ b < 0 then none
  else if a < b then
    -- the arguments change places, and so do the results
    if a = 0 then some (b, 0, 1) else (euclidLoop (a.natAbs + 1) (b, 1, 0) (a, 0, 1)).map fun (d, y, x) => (d, x, y)
  else if b = 0 then some (a, 1, 0)
  else euclidLoop (b.natAbs + 1) (a, 1, 0) (b, 0, 1)

theorem euclidLoop_spec {a0 b0 : Int} : ∀ (k : Nat) (a x2 y2 b x1 y1 : Int), 0 ≤ a → 0 ≤ b → b.natAbs < k →
    Comb a0 b0 (a, x2, y2) → Comb a0 b0 (b, x1, y1) →
    ∃ x y, euclidLoop k (a, x2, y2) (b, x1, y1) = some ((Int.gcd a b : Int), x, y) ∧ Comb a0 b0 ((Int.gcd a b : Int), x, y) := by
  intro k
  induction k with
  | zero => intro a x2 y2 b x1 y1 _ _ hk; exact absurd hk (Nat.not_lt_zero _)
  | succ k ih =>
    intro a x2 y2 b x1 y1 ha hb hk hca hcb
    rw [euclidLoop]
    split
    · rename_i hpos
      have hmod : a.tmod b = a % b := Int.tmod_eq_emod_of_nonneg ha
      have hdiv : a.tdiv b = a / b := Int.tdiv_eq_ediv_of_nonneg ha
      have hlt := Int.emod_lt_of_pos a hpos.2
      have hge := Int.emod_nonneg a hpos.1
      have hab := Int.mul_ediv_add_emod a b
      have hcr : Comb a0 b0 (a % b, x2 - a / b * x1, y2 - a / b * y1) := by
        simp only [Comb] at hca hcb ⊢
        linear_combination hca - a / b * hcb + hab
      rw [mpdiv_eq a hpos.2, hmod, hdiv]
      obtain ⟨x, y, hrun, hc⟩ := ih b x1 y1 (a % b) _ _ hb hge (by omega) hcb hcr
      have hgcd : Int.gcd b (a % b) = Int.gcd a b := by rw [Int.gcd_comm, Int.gcd_emod, Int.gcd_comm]
      rw [hgcd] at hrun hc
      exact ⟨x, y, hrun, hc⟩
    · obtain rfl : b = 0 := by omega
      rw [Int.gcd_zero_right, Int.natAbs_of_nonneg ha]
      exact ⟨x2, y2, rfl, hca⟩

theorem mpeuclid_spec {a b : Int} (ha : 0 < a) (hb : 0 < b) :
    ∃ x y, mpeuclid a b = some ((Int.gcd a b : Int), x, y) ∧ a * x + b * y = Int.gcd a b := by
  unfold mpeuclid
  rw [if_neg (by omega)]
  split
  · obtain ⟨y, x, hrun, hc⟩ := @euclidLoop_spec b a (a.natAbs + 1) b 1 0 a 0 1 (by omega) (by omega) (by omega)
      (by simp only [Comb]; ring) (by simp only [Comb]; ring)
    rw [if_neg (by omega), hrun, Int.gcd_comm b a]
    rw [Int.gcd_comm b a] at hc
    simp only [Comb] at hc
    exact ⟨x, y, rfl, by linear_combination -hc⟩
  · obtain ⟨x, y, hrun, hc⟩ := @euclidLoop_spec a b (b.natAbs + 1) a 1 0 b 0 1 (by omega) (by omega) (by omega)
      (by simp only [Comb]; ring) (by simp only [Comb]; ring)
    rw [if_neg (by omega), hrun]
    simp only [Comb] at hc
    exact ⟨x, y, rfl, by linear_combination -hc⟩

/-! ## Inverses -/

theorem mpmod_le {x n r : Int} (hn : 0 < n) (h : mpmod x n = some r) : r ≤ n := by
  rw [mpmod_eq x hn, Option.some.injEq] at h
  have := Int.emod_lt_of_pos x hn
  rw [← h]
  split <;> omega

theorem mpinvert_residue {b m : Int} (hb : 0 ≤ b) (hm : 1 < m) (h : Int.gcd b m = 1) :
    ∃ r, mpinvert b m = some r ∧ 0 ≤ r ∧ r < m ∧ (b * r) % m = 1 % m := by
  have hpos : 0 < b := by
    by_contra hle
    obtain rfl : b = 0 := by omega
    rw [Int.gcd_zero_left] at h
    omega
  obtain ⟨r, hrun, h0, hinv⟩ := mpinvert_spec hpos (show 0 < m by omega) h
  refine ⟨r, hrun, h0, ?_, hinv⟩
  have hle : r ≤ m := by
    unfold mpinvert at hrun
    split at hrun
    · cases hrun
    · split at hrun
      · cases hrun
      · exact mpmod_le (by omega) hrun
  by_contra hge
  obtain rfl : r = m := by omega
  rw [Int.mul_emod_left, Int.emod_eq_of_lt (by omega) hm] at hinv
  omega

/-- Both algorithms find the greatest common divisor and factors for it, and `mpinvert` finds the inverse of
what has one and is not negative. -/
theorem gcd_inverse :
    (∀ a b : Int, 0 < a → 0 < b → ∃ x y, mpextendedgcd a b = some ((Int.gcd a b : Int), x, y) ∧ a * x + b * y = Int.gcd a b) ∧
    (∀ b m : Int, 0 ≤ b → 1 < m → Int.gcd b m = 1 → ∃ r, mpinvert b m = some r ∧ 0 ≤ r ∧ r < m ∧ (b * r) % m = 1 % m) ∧
    ∀ a b : Int, 0 < a → 0 < b → ∃ x y, mpeuclid a b = some ((Int.gcd a b : Int), x, y) ∧ a * x + b * y = Int.gcd a b :=
  ⟨fun _ _ ha hb => mpextendedgcd_spec ha hb, fun _ _ hb hm h => mpinvert_residue hb hm h, fun _ _ ha hb => mpeuclid_spec ha hb⟩

theorem gcd_inverse_twelve : ∃ x y, mpeuclid 12 18 = some ((Int.gcd 12 18 : Int), x, y) ∧ 12 * x + 18 * y = Int.gcd 12 18 :=
  gcd_inverse.2.2 12 18 (by decide) (by decide)

/-- For a negative number the divisor is 0, not 1. -/
theorem mpinvert_negative : ¬ ∀ b m : Int, 1 < m → Int.gcd b m = 1 →
    ∃ r, mpinvert b m = some r ∧ 0 ≤ r ∧ r < m ∧ (b * r) % m = 1 % m := by
  intro h
  obtain ⟨r, hr, -⟩ := h (-1) 3 (by decide) (by decide)
  cases hr

end Plan9.Libmp
